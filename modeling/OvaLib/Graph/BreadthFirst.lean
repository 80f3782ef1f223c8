import OvaLib.Graph.ConnectedComponents
import OvaLib.Graph.TopologicalSort

/-!
# Breadth-first traversal

`graph_bfs_impl`. Its loop is the one that `graph_connected_components_impl` runs for each
component, with the list it returns in place of the list of the component.

The loop takes fuel, and `none` is a call that has not returned.

## The contract

The call returns the pointers of the vertices in reach of the start, each once, and the start first.
The number of edges on a shortest way to a vertex does not go down along the list. Among vertices
that are equally near, the order is that of the queue and nothing is promised about it.

## How the proof goes

A vertex is marked when it is put into the queue, not when it is taken off, so no vertex is in the
queue twice. The invariant of the search is about layers: the vertices in the queue are at distance
`c` or `c + 1`, those at distance `c` in front. It is stated and kept in the module on connected
components, whose loop does the same to a list of its own. Here the two loops are shown to be one,
turn by turn and with allocations that may fail, and the theorem is read off that loop.

## Scope

Directed and undirected graphs. The traversal follows what `has_edge` says; weights play no part.

## Main results

* `BfsState.loop_eq_search` — the two loops do the same
* `bfs_correct` — the vertices in reach, the nearer ones first
-/

namespace OvaLib

namespace Graph

open Foundation Relation

/-! ## The model -/

/-- The variables of `graph_bfs_impl`. -/
structure BfsState where
  visited : ℕ → Bool
  q : LinkedQueue ℕ
  order : ArrayList (Option ℕ)
  allocator : Allocator

namespace BfsState

/-- `visited[v] = true; q->enqueue(q, v)`. -/
def enqueue (st : BfsState) (v : ℕ) : BfsState :=
  let (_, q, a) := st.q.enqueue v st.allocator
  { st with visited := Function.update st.visited v true, q := q, allocator := a }

/-- One edge out of the vertex that was dequeued. -/
def followEdge (st : BfsState) (e : ℕ × WithTop ℚ) : BfsState :=
  if st.visited e.1 then st else st.enqueue e.1

/-- `order->insert(order, g->vertex_ptrs[v], order->size(order))`. -/
def emit (g : GraphImpl) (st : BfsState) (v : ℕ) : BfsState :=
  let (_, order, a) := st.order.insert (g.vertexPtrs v) st.order.size st.allocator
  { st with order := order, allocator := a }

/-- The loop, until the queue is empty. -/
def loop (g : GraphImpl) : ℕ → BfsState → Option BfsState
  | 0, _ => none
  | fuel + 1, st =>
    match st.q.dequeue with
    | (none, _) => some st
    | (some v, q) => loop g fuel ((g.outEdges v).foldl followEdge (emit g { st with q := q } v))

end BfsState

/-- `graph_bfs_impl`. -/
def GraphImpl.bfs (fuel : ℕ) (g : GraphImpl) (startVertex : ℤ) (a : Allocator) :
    Option (Option (ArrayList (Option ℕ))) :=
  match g.createVertexList a with
  | (none, _) => some none
  | (some order, a) =>
    if !g.isValidVertex startVertex then some (some order)
    else
      let (visited, a) := a.alloc
      let (q, a) := LinkedQueue.create a
      match visited, q with
      | true, some q =>
        let st := BfsState.enqueue ⟨fun _ => false, q, order, a⟩ startVertex.toNat
        match st.loop g fuel with
        | none => none
        | some st => some (some st.order)
      | _, _ => some none

/-! ## The two loops

The variables differ only in where the order is kept. -/

namespace BfsState

variable {g : GraphImpl} (components : ArrayList (ArrayList (Option ℕ)))

/-- The variables of one search of `graph_connected_components_impl`. -/
def asSearch (st : BfsState) : ComponentsState :=
  ⟨st.visited, st.q, components, st.allocator⟩

/-- The variables after such a search. -/
def ofSearch (r : ComponentsState × ArrayList (Option ℕ)) : BfsState :=
  ⟨r.1.visited, r.1.q, r.2, r.1.allocator⟩

theorem asSearch_followEdge (st : BfsState) (e : ℕ × WithTop ℚ) :
    (st.followEdge e).asSearch components = (st.asSearch components).followEdge e := by
  rw [followEdge, ComponentsState.followEdge, asSearch]
  show asSearch components (if st.visited e.1 then st else st.enqueue e.1) =
    if st.visited e.1 then _ else _
  split
  · rfl
  · rfl

theorem order_followEdge (st : BfsState) (e : ℕ × WithTop ℚ) :
    (st.followEdge e).order = st.order := by
  rw [followEdge]
  split
  · rfl
  · rfl

theorem foldl_followEdge : ∀ (es : List (ℕ × WithTop ℚ)) (st : BfsState),
    (es.foldl followEdge st).asSearch components =
        es.foldl ComponentsState.followEdge (st.asSearch components) ∧
      (es.foldl followEdge st).order = st.order := by
  intro es
  induction es with
  | nil => exact fun st => ⟨rfl, rfl⟩
  | cons e es ih =>
    intro st
    rw [List.foldl_cons, List.foldl_cons, ← asSearch_followEdge]
    exact ⟨(ih _).1, (ih _).2.trans (order_followEdge st e)⟩

/-- **The two loops do the same**, whichever allocations fail. -/
theorem loop_eq_search : ∀ (fuel : ℕ) (st : BfsState), st.loop g fuel =
    (ComponentsState.search g fuel (st.asSearch components) st.order).map ofSearch := by
  intro fuel
  induction fuel with
  | zero => exact fun st => rfl
  | succ fuel ih =>
    intro st
    rw [loop, ComponentsState.search]
    show _ = Option.map ofSearch (match st.q.dequeue with
      | (none, _) => some (st.asSearch components, st.order)
      | (some v, q) => _)
    cases hdequeue : st.q.dequeue with
    | mk data q =>
      cases data with
      | none => rfl
      | some v =>
        obtain ⟨hsearch, horder⟩ := foldl_followEdge components (g.outEdges v)
          (emit g { st with q := q } v)
        dsimp only
        rw [ih, hsearch, horder]
        rfl

end BfsState

open BfsState

variable {g : GraphImpl}

/-- **Breadth-first traversal.** From a vertex of any graph that calls can build, with allocations
succeeding, the call returns the pointers to the vertices in reach, each once, in the order of their
distance. -/
theorem bfs_correct (hg : Built g) {start : ℤ} (hstart : g.hasVertex start = true) {fuel : ℕ}
    (hfuel : g.vertexCount < fuel) :
    ∃ (out : ArrayList (Option ℕ)) (order : List ℕ),
      g.bfs fuel start Allocator.always = some (some out) ∧
      out.items = order.map some ∧ order.Nodup ∧
      (∀ v, v ∈ order ↔ ReflTransGen (HasEdge g) start.toNat v) ∧
      order.Pairwise fun u v =>
        hops (HasEdge g) start.toNat u ≤ hops (HasEdge g) start.toNat v := by
  have hwf := hg.wellFormed
  have hmem := GraphImpl.mem_vertices_of_hasVertex hstart
  obtain ⟨out, hcreate, hnil, hpos⟩ := createVertexList_always hwf
  -- no vertex is visited before the search, and the list of components plays no part in it
  let components : ArrayList (ArrayList (Option ℕ)) := ⟨[], 0, Nat.zero_le _, Nat.zero_le _⟩
  let st : BfsState := ⟨fun _ => false, ⟨[], 0⟩, out, Allocator.always⟩
  have hvisited : ∀ v, (st.asSearch components).visited v = true ↔ v ∈ (∅ : Set ℕ) := fun v =>
    iff_of_false Bool.false_ne_true (Set.notMem_empty v)
  have hsearching : ComponentsState.Searching g components ∅ start.toNat
      ((st.asSearch components).enqueue start.toNat) out [] start.toNat [] :=
    ComponentsState.searching_start rfl rfl hvisited hnil hpos _
  obtain ⟨st', comp, order, c, hsearch, h, hempty⟩ := ComponentsState.search_spec hwf hg.hasPtrs
    hmem (fun v _ => Set.notMem_empty v) hsearching (by rw [← hwf.count]; exact hfuel)
  have hlayers := h.layers
  rw [hempty] at hlayers
  refine ⟨comp, order, ?_, h.comp_eq, (List.append_nil order) ▸ hlayers.nodup,
    fun v => hlayers.mem_iff, (List.append_nil order) ▸ hlayers.sorted⟩
  have hloop : (st.enqueue start.toNat).loop g fuel = some (ofSearch (st', comp)) := by
    rw [loop_eq_search components]
    exact congrArg (Option.map ofSearch) hsearch
  rw [GraphImpl.bfs, hcreate]
  dsimp only
  rw [GraphImpl.isValidVertex_eq, hstart, Allocator.alloc_always]
  dsimp only
  rw [LinkedQueue.create_always]
  dsimp only
  rw [hloop]
  rfl

/-- A loop, a cycle and two ways to a vertex. -/
theorem bfs_correct_cycle :
    ∃ g, build (fun _ => 0) .directed .adjacencyMatrix .bfs .dijkstra Allocator.always
        [.addEdge 3 3 1, .addEdge 3 1 1, .addEdge 1 20 1, .addEdge 3 20 1, .addEdge 20 3 1] =
          some (g, Allocator.always) ∧
      ∃ (out : ArrayList (Option ℕ)) (order : List ℕ),
        g.bfs (g.vertexCount + 1) 3 Allocator.always = some (some out) ∧
        out.items = order.map some ∧ order.Nodup ∧
        (∀ v, v ∈ order ↔ ReflTransGen (HasEdge g) 3 v) ∧
        order.Pairwise fun u v => hops (HasEdge g) 3 u ≤ hops (HasEdge g) 3 v := by
  have hscope : ∀ c ∈ [Call.addEdge 3 3 1, .addEdge 3 1 1, .addEdge 1 20 1, .addEdge 3 20 1,
      .addEdge 20 3 1], c.InScope := by decide
  obtain ⟨g, hg, hrepr, -⟩ :=
    build_represents (fun _ => 0) .directed .adjacencyMatrix .bfs .dijkstra hscope
  have hstart : g.hasVertex 3 = true := by
    rw [hrepr.hasVertex_iff]
    refine ⟨by norm_num, ?_⟩
    decide
  exact ⟨g, hg, bfs_correct ⟨_, _, _, _, _, _, _, _, hg⟩ hstart (Nat.lt_succ_self _)⟩

end Graph

end OvaLib
