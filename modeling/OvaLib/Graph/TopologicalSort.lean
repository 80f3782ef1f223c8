import OvaLib.Foundation.Acyclic
import OvaLib.Graph.StrongComponents
import OvaLib.Queue.LinkedQueue

/-!
# Topological sorting and cycles

`graph_topological_sort_impl` and `graph_has_cycle_impl`. The first removes the vertices without
incoming edges one after the other, the second colours the vertices as a depth-first search enters
and leaves them. Loops and recursions take fuel, and `none` is a call that has not returned.

## Two functions, one question

`topological_sort` returns an order of all vertices in which every edge leads forward, or `NULL`
when there is none; `has_cycle` says whether a directed graph has a cycle. The answers belong
together, since there is such an order exactly when there is no cycle. The code never makes use of
this. It computes the two answers by unrelated methods, and each is shown to be right about the
relation that `has_edge` gives.

## Removing vertices

The array counts, for each vertex, the edges from vertices that are not removed yet. A vertex is
queued when its count comes to zero, and that happens once. The invariant allows for a loop over
edges in the middle of which it has to hold: `pending` are the heads of the edges out of the present
vertex that are still to be counted down. When the queue is empty the vertices left each have an
edge from another of them, so there are none or there is a cycle.

## Colouring vertices

White, grey and black are 0, 1 and 2. The grey vertices form the path that the search stands at the
end of; nothing black has an edge to a vertex that is not black. An edge to a grey vertex closes a
cycle, and the search stops at once. Otherwise all vertices are black in the end, and no black
vertex is on a cycle.

The functions for undirected graphs are defined here, beside their siblings, and have a module of
their own.

## Main results

* `TopoState.loop_spec` — the loop ends with an empty queue
* `hasCycleDirectedDfs_spec` — one call of the coloured search, with the calls it makes
* `topologicalSort_correct` — both functions tell the graphs with a cycle from those with an order
-/

namespace OvaLib

namespace Graph

open Foundation

/-! ## The model -/

/-- `create_vertex_list`. -/
def GraphImpl.createVertexList (g : GraphImpl) (a : Allocator) :
    Option (ArrayList (Option ℕ)) × Allocator :=
  ArrayList.create (if 0 < g.vertexCount then g.vertexCount else 4) a

/-- The variables of `graph_topological_sort_impl`. -/
structure TopoState where
  indegree : ℕ → ℤ
  queue : LinkedQueue ℕ
  order : ArrayList (Option ℕ)
  allocator : Allocator

namespace TopoState

/-- `q->enqueue(q, v)`; nobody looks at the error code. -/
def enqueue (st : TopoState) (v : ℕ) : TopoState :=
  let (_, queue, a) := st.queue.enqueue v st.allocator
  { st with queue := queue, allocator := a }

/-- One turn of the loop that fills the queue. -/
def enqueueReady (g : GraphImpl) (st : TopoState) (v : ℕ) : TopoState :=
  if g.isValidVertex v ∧ st.indegree v = 0 then st.enqueue v else st

/-- One edge out of the vertex that was dequeued. -/
def dropEdge (st : TopoState) (e : ℕ × WithTop ℚ) : TopoState :=
  let st := { st with indegree := Function.update st.indegree e.1 (st.indegree e.1 - 1) }
  if st.indegree e.1 = 0 then st.enqueue e.1 else st

/-- `order->insert(order, g->vertex_ptrs[v], order->size(order))`. -/
def emit (g : GraphImpl) (st : TopoState) (v : ℕ) : TopoState :=
  let (_, order, a) := st.order.insert (g.vertexPtrs v) st.order.size st.allocator
  { st with order := order, allocator := a }

/-- The loop, until the queue is empty. -/
def loop (g : GraphImpl) : ℕ → TopoState → Option TopoState
  | 0, _ => none
  | fuel + 1, st =>
    match st.queue.dequeue with
    | (none, _) => some st
    | (some v, queue) =>
      loop g fuel ((g.outEdges v).foldl dropEdge (emit g { st with queue := queue } v))

end TopoState

namespace GraphImpl

/-- The edges out of one vertex are counted. -/
def countEdges (g : GraphImpl) (indegree : ℕ → ℤ) (fromVertex : ℕ) : ℕ → ℤ :=
  if !g.isValidVertex fromVertex then indegree
  else
    (g.outEdges fromVertex).foldl (fun d e => Function.update d e.1 (d e.1 + 1)) indegree

/-- `graph_topological_sort_impl`. -/
def topologicalSort (fuel : ℕ) (g : GraphImpl) (a : Allocator) :
    Option (Option (ArrayList (Option ℕ))) :=
  if g.type ≠ .directed then some none
  else
    let (indegree, a) := a.alloc
    let (q, a) := LinkedQueue.create a
    let (order, a) := g.createVertexList a
    match indegree, q, order with
    | true, some q, some order =>
      let indegree := (List.range g.vertexCapacity).foldl g.countEdges fun _ => 0
      let st : TopoState := ⟨indegree, q, order, a⟩
      let st := (List.range g.vertexCapacity).foldl (TopoState.enqueueReady g) st
      match st.loop g fuel with
      | none => none
      | some st => some (if st.order.size = g.vertexCount then some st.order else none)
    | _, _, _ => some none

/-- The loop of `has_cycle_directed_dfs` over the edges out of a vertex. -/
def followDirected (dfs : (ℕ → ℕ) → ℕ → Option (Bool × (ℕ → ℕ))) :
    List (ℕ × WithTop ℚ) → (ℕ → ℕ) → Option (Bool × (ℕ → ℕ))
  | [], color => some (false, color)
  | e :: es, color =>
    if color e.1 = 1 then some (true, color)
    else if color e.1 = 0 then
      match dfs color e.1 with
      | none => none
      | some (true, color) => some (true, color)
      | some (false, color) => followDirected dfs es color
    else followDirected dfs es color

/-- `has_cycle_directed_dfs`, which shares the array `color` with the calls it makes. -/
def hasCycleDirectedDfs (g : GraphImpl) : ℕ → (ℕ → ℕ) → ℕ → Option (Bool × (ℕ → ℕ))
  | 0, _, _ => none
  | fuel + 1, color, v =>
    match followDirected (hasCycleDirectedDfs g fuel) (g.outEdges v)
        (Function.update color v 1) with
    | none => none
    | some (true, color) => some (true, color)
    | some (false, color) => some (false, Function.update color v 2)

/-- The loop of `graph_has_cycle_impl` over the vertices of a directed graph. -/
def cycleFromDirected (g : GraphImpl) (fuel : ℕ) : List ℕ → (ℕ → ℕ) → Option Bool
  | [], _ => some false
  | v :: vs, color =>
    if !g.isValidVertex v ∨ color v ≠ 0 then cycleFromDirected g fuel vs color
    else
      match g.hasCycleDirectedDfs fuel color v with
      | none => none
      | some (true, _) => some true
      | some (false, color) => cycleFromDirected g fuel vs color

/-- The loop of `has_cycle_undirected_dfs` over the edges out of a vertex. -/
def followUndirected (dfs : (ℕ → Bool) → ℕ → Option (Bool × (ℕ → Bool))) (parent : ℤ) :
    List (ℕ × WithTop ℚ) → (ℕ → Bool) → Option (Bool × (ℕ → Bool))
  | [], visited => some (false, visited)
  | e :: es, visited =>
    if !visited e.1 then
      match dfs visited e.1 with
      | none => none
      | some (true, visited) => some (true, visited)
      | some (false, visited) => followUndirected dfs parent es visited
    else if (e.1 : ℤ) ≠ parent then some (true, visited)
    else followUndirected dfs parent es visited

/-- `has_cycle_undirected_dfs`. -/
def hasCycleUndirectedDfs (g : GraphImpl) :
    ℕ → ℤ → (ℕ → Bool) → ℕ → Option (Bool × (ℕ → Bool))
  | 0, _, _, _ => none
  | fuel + 1, parent, visited, v =>
    followUndirected (hasCycleUndirectedDfs g fuel v) parent (g.outEdges v)
      (Function.update visited v true)

/-- The loop of `graph_has_cycle_impl` over the vertices of an undirected graph. -/
def cycleFromUndirected (g : GraphImpl) (fuel : ℕ) : List ℕ → (ℕ → Bool) → Option Bool
  | [], _ => some false
  | v :: vs, visited =>
    if !g.isValidVertex v ∨ visited v then cycleFromUndirected g fuel vs visited
    else
      match g.hasCycleUndirectedDfs fuel (-1) visited v with
      | none => none
      | some (true, _) => some true
      | some (false, visited) => cycleFromUndirected g fuel vs visited

/-- `graph_has_cycle_impl`. -/
def hasCycle (fuel : ℕ) (g : GraphImpl) (a : Allocator) : Option Bool :=
  let (ok, _) := a.alloc
  if !ok then some false
  else
    match g.type with
    | .directed => g.cycleFromDirected fuel (List.range g.vertexCapacity) fun _ => 0
    | .undirected => g.cycleFromUndirected fuel (List.range g.vertexCapacity) fun _ => false

end GraphImpl

/-! ## Removing the vertices without incoming edges -/

variable {g : GraphImpl}

/-- The heads of the edges out of a vertex. -/
def heads (g : GraphImpl) (v : ℕ) : List ℕ := (g.outEdges v).map Prod.fst

theorem hasEdge_iff_mem_heads (h : WellFormed g) (u v : ℕ) :
    HasEdge g u v ↔ u ∈ g.vertices ∧ v ∈ heads g u := by
  constructor
  · intro huv
    have hu := (hasEdge_cast.mp huv).1
    exact ⟨hu, (mem_outEdges_fst h hu).mpr huv⟩
  · rintro ⟨hu, hv⟩
    exact (mem_outEdges_fst h hu).mp hv

/-- The loop over the edges out of a vertex adds one for each edge. -/
theorem foldl_count (es : List (ℕ × WithTop ℚ)) (d : ℕ → ℤ) (v : ℕ) :
    es.foldl (fun d e => Function.update d e.1 (d e.1 + 1)) d v =
      d v + ((es.map Prod.fst).count v : ℤ) := by
  induction es generalizing d with
  | nil => simp
  | cons e es ih =>
    rw [List.foldl_cons, ih, List.map_cons]
    by_cases hv : e.1 = v
    · rw [hv, Function.update_self, List.count_cons_self]
      omega
    · rw [Function.update_of_ne (Ne.symm hv), List.count_cons_of_ne hv]

theorem countEdges_apply (g : GraphImpl) (d : ℕ → ℤ) (u v : ℕ) :
    g.countEdges d u v =
      d v + if g.isValidVertex u = true then ((heads g u).count v : ℤ) else 0 := by
  rw [GraphImpl.countEdges]
  cases g.isValidVertex u with
  | false => simp
  | true =>
    rw [if_neg (by simp), if_pos rfl, foldl_count]
    rfl

/-- Before anything is removed, the edges from every vertex are counted. -/
theorem foldl_countEdges (g : GraphImpl) (v : ℕ) :
    (List.range g.vertexCapacity).foldl g.countEdges (fun _ => 0) v =
      edgesInto (heads g) g.vertices [] v := by
  have hloop : ∀ n, (List.range n).foldl g.countEdges (fun _ => 0) v =
      ∑ u ∈ (Finset.range n).filter fun u : ℕ => g.isValidVertex u = true,
        ((heads g u).count v : ℤ) := by
    intro n
    induction n with
    | zero => rfl
    | succ n ih =>
      rw [List.range_succ, List.foldl_append, List.foldl_cons, List.foldl_nil,
        Finset.range_add_one, Finset.filter_insert, countEdges_apply, ih]
      split
      · rw [Finset.sum_insert (by simp), add_comm]
      · rw [add_zero]
  have hset : (Finset.range g.vertexCapacity).filter (fun u : ℕ => g.isValidVertex u = true) =
      g.vertices \ ([] : List ℕ).toFinset := by
    ext u
    rw [Finset.mem_filter, GraphImpl.isValidVertex_cast, Finset.mem_sdiff, GraphImpl.mem_vertices]
    simp
  rw [hloop, edgesInto, hset]

namespace TopoState

variable {st : TopoState} {order pending : List ℕ}

theorem enqueue_always (h : st.allocator = Allocator.always) (v : ℕ) :
    ∃ queue, st.enqueue v = { st with queue := queue } ∧
      queue.items = st.queue.items ++ [v] := by
  obtain ⟨queue, henqueue, hitems⟩ := st.queue.enqueue_always v
  refine ⟨queue, ?_, hitems⟩
  rw [enqueue]
  rw [h, henqueue, ← h]

/-- The variables show a removal. -/
structure Shows (g : GraphImpl) (st : TopoState) (order pending : List ℕ) : Prop where
  allocator : st.allocator = Allocator.always
  order_eq : st.order.items = order.map some
  order_pos : 0 < st.order.capacity
  /-- The invariant of the abstract removal, which speaks of heads and counts only. -/
  removal : Removal (heads g) g.vertices order st.queue.items st.indegree pending

/-- The vertices without incoming edges are queued, in ascending order. -/
theorem foldl_enqueueReady (g : GraphImpl) : ∀ (vs : List ℕ) {st : TopoState},
    st.allocator = Allocator.always →
      ∃ queue, vs.foldl (enqueueReady g) st = { st with queue := queue } ∧
        queue.items = st.queue.items ++
          vs.filter fun v => g.isValidVertex (v : ℕ) ∧ st.indegree v = 0 := by
  intro vs
  induction vs with
  | nil => exact fun {st} _ => ⟨st.queue, rfl, by simp⟩
  | cons v vs ih =>
    intro st hst
    rw [List.foldl_cons]
    by_cases hready : g.isValidVertex (v : ℕ) ∧ st.indegree v = 0
    · obtain ⟨queue, heq, hitems⟩ := enqueue_always hst v
      rw [enqueueReady, if_pos hready, heq]
      obtain ⟨queue', heq', hitems'⟩ := @ih { st with queue := queue } hst
      refine ⟨queue', heq', ?_⟩
      rw [hitems', List.filter_cons_of_pos (by simpa using hready)]
      show queue.items ++ _ = _
      rw [hitems, List.append_assoc, List.singleton_append]
    · rw [enqueueReady, if_neg hready]
      obtain ⟨queue, heq, hitems⟩ := ih hst
      exact ⟨queue, heq, by rw [hitems, List.filter_cons_of_neg (by simpa using hready)]⟩

/-- One edge out of the vertex that was dequeued. -/
theorem Shows.dropEdge {e : ℕ × WithTop ℚ} (h : st.Shows g order (e.1 :: pending))
    (he : e.1 ∈ g.vertices) : (st.dropEdge e).Shows g order pending := by
  have hremoval := h.removal.drop he
  rw [TopoState.dropEdge]
  simp only [Function.update_self]
  split
  · next hzero =>
    rw [if_pos hzero] at hremoval
    obtain ⟨queue, heq, hitems⟩ := @enqueue_always
      { st with indegree := Function.update st.indegree e.1 (st.indegree e.1 - 1) } h.allocator e.1
    rw [heq]
    exact ⟨h.allocator, h.order_eq, h.order_pos, hitems ▸ hremoval⟩
  · next hne =>
    rw [if_neg hne] at hremoval
    exact ⟨h.allocator, h.order_eq, h.order_pos, hremoval⟩

theorem Shows.foldl_dropEdge : ∀ {es : List (ℕ × WithTop ℚ)} {st : TopoState},
    st.Shows g order (es.map Prod.fst) → (∀ e ∈ es, e.1 ∈ g.vertices) →
      (es.foldl TopoState.dropEdge st).Shows g order [] := by
  intro es
  induction es with
  | nil => exact fun h _ => h
  | cons e es ih =>
    intro st h hes
    exact ih (h.dropEdge (hes e List.mem_cons_self)) fun e' he' =>
      hes e' (List.mem_cons_of_mem _ he')

/-- One turn of the loop removes a vertex. -/
theorem Shows.turn (hwf : WellFormed g) (hptrs : HasPtrs g) (h : st.Shows g order [])
    {v : ℕ} {queue : LinkedQueue ℕ} (hqueue : st.queue.items = v :: queue.items) :
    ((g.outEdges v).foldl TopoState.dropEdge (emit g { st with queue := queue } v)).Shows g
      (order ++ [v]) [] := by
  have hremoval := h.removal
  rw [hqueue] at hremoval
  have hv : v ∈ g.vertices := hremoval.mem_vertices v (by simp)
  have hpop := hremoval.pop
  have hroom : st.order.items.length < intMax := by
    have hcard := hpop.length_le
    rw [List.length_append, List.length_append, List.length_singleton] at hcard
    have hmax := hwf.card_vertices_le
    rw [h.order_eq, List.length_map]
    omega
  obtain ⟨out, hinsert, hitems, hpos⟩ :=
    ArrayList.append_always h.order_pos hroom (g.vertexPtrs v)
  refine Shows.foldl_dropEdge ?_ fun e he => ?_
  · rw [emit]
    dsimp only
    rw [h.allocator, hinsert]
    refine ⟨rfl, ?_, hpos, hpop⟩
    show out.items = _
    rw [hitems, h.order_eq, hptrs v hv, List.map_append]
    rfl
  · exact HasEdge.mem_right ((mem_outEdges_fst hwf hv).mp (List.mem_map_of_mem he))

/-- **The loop ends with an empty queue**, by induction on the fuel: every turn removes a vertex. -/
theorem loop_spec (hwf : WellFormed g) (hptrs : HasPtrs g) :
    ∀ {fuel : ℕ} {st : TopoState} {order : List ℕ}, st.Shows g order [] →
      g.vertices.card < fuel + order.length →
      ∃ st' order', st.loop g fuel = some st' ∧ st'.Shows g order' [] ∧ st'.queue.items = [] := by
  intro fuel
  induction fuel with
  | zero =>
    intro st order h hfuel
    have hcard := h.removal.length_le
    rw [List.length_append] at hcard
    omega
  | succ fuel ih =>
    intro st order h hfuel
    rw [loop]
    cases hitems : st.queue.items with
    | nil =>
      rw [LinkedQueue.dequeue_nil hitems]
      exact ⟨st, order, rfl, h, hitems⟩
    | cons v items =>
      obtain ⟨queue, hdequeue, hrest⟩ := LinkedQueue.dequeue_cons hitems
      rw [hdequeue]
      refine ih (h.turn hwf hptrs (by rw [hitems, hrest])) ?_
      rw [List.length_append, List.length_singleton]
      omega

end TopoState

open TopoState

theorem createVertexList_always (hwf : WellFormed g) : ∃ out : ArrayList (Option ℕ),
    g.createVertexList Allocator.always = (some out, Allocator.always) ∧ out.items = [] ∧
      0 < out.capacity := by
  have hmax : g.vertexCount ≤ intMax := hwf.count ▸ hwf.card_vertices_le
  rw [GraphImpl.createVertexList]
  split
  · next hcount =>
    exact ⟨_, ArrayList.create_always (by omega) (by exact_mod_cast hmax), rfl, by
      simpa using hcount⟩
  · exact ⟨_, ArrayList.create_always (by norm_num) (by decide), rfl, by norm_num⟩

/-- With allocations succeeding the call returns: `NULL` when there is a cycle, and a topological
order when there is none. -/
theorem topologicalSort_spec (hwf : WellFormed g) (hptrs : HasPtrs g)
    (hdirected : g.type = .directed) {fuel : ℕ} (hfuel : g.vertexCount < fuel) :
    (g.topologicalSort fuel Allocator.always = some none ∧ HasCycle (HasEdge g)) ∨
      ∃ out order, g.topologicalSort fuel Allocator.always = some (some out) ∧
        out.items = order.map some ∧ IsTopologicalOrder (HasEdge g) g.vertices order := by
  obtain ⟨out, hcreate, hnil, hpos⟩ := createVertexList_always hwf
  rw [GraphImpl.topologicalSort]
  rw [if_neg (not_not.mpr hdirected), Allocator.alloc_always]
  dsimp only
  rw [LinkedQueue.create_always]
  dsimp only
  rw [hcreate]
  dsimp only
  obtain ⟨queue, hready, hitems⟩ := @foldl_enqueueReady g (List.range g.vertexCapacity)
    ⟨(List.range g.vertexCapacity).foldl g.countEdges fun _ => 0, ⟨[], 0⟩, out,
      Allocator.always⟩ rfl
  rw [hready]
  have hstart : Shows g ⟨(List.range g.vertexCapacity).foldl g.countEdges fun _ => 0, queue, out,
      Allocator.always⟩ [] [] := by
    refine ⟨rfl, hnil, hpos, Removal.start _ _ (fun v _ => foldl_countEdges g v) ?_ fun v => ?_⟩
    · rw [hitems]
      exact List.nodup_range.filter _
    · rw [hitems, List.nil_append, List.mem_filter, List.mem_range, decide_eq_true_iff,
        GraphImpl.isValidVertex_cast]
      exact ⟨fun h => h.2, fun h => ⟨(GraphImpl.mem_vertices.mp h.1).1, h⟩⟩
  obtain ⟨st, order, hloop, hst, hempty⟩ :=
    loop_spec hwf hptrs hstart (by
      rw [List.length_nil, ← hwf.count]
      exact hfuel)
  rw [hloop]
  dsimp only
  have hremoval := hst.removal
  rw [hempty] at hremoval
  have hsize : st.order.size = order.length := by
    rw [ArrayList.size, hst.order_eq, List.length_map]
  rcases hremoval.isTopologicalOrder_or (hasEdge_iff_mem_heads hwf) fun u v h => h.mem_right with
    ⟨hall, horder⟩ | ⟨hlt, hcycle⟩
  · rw [if_pos (by rw [hsize, hall, hwf.count])]
    exact .inr ⟨st.order, order, rfl, hst.order_eq, horder⟩
  · rw [if_neg (by rw [hsize, hwf.count]; exact hlt.ne)]
    exact .inl ⟨rfl, hcycle⟩

/-! ## Colouring the vertices -/

/-- The array `color` shows a search that stands at the end of a path: the vertices of the path are
coloured 1, those the search has left 2. -/
structure Colors (g : GraphImpl) (color : ℕ → ℕ) (path : List ℕ) : Prop where
  /-- Grey vertices are those of the path. -/
  entered : ∀ u, color u = 1 ↔ u ∈ path
  /-- Black vertices have black successors. -/
  painting : Painting (HasEdge g) path {u | color u = 2}
  le_two : ∀ u, color u ≤ 2

/-- The vertices the search has not come to. -/
def unentered (g : GraphImpl) (color : ℕ → ℕ) : Finset ℕ := g.vertices.filter fun u => color u = 0

/-- What one call for `v` does. -/
def ColorSpec (g : GraphImpl) (dfs : (ℕ → ℕ) → ℕ → Option (Bool × (ℕ → ℕ))) (room : ℕ) : Prop :=
  ∀ {color : ℕ → ℕ} {path : List ℕ} {v : ℕ}, Colors g color path → v ∈ g.vertices →
    color v = 0 → (∀ x ∈ path, Relation.ReflTransGen (HasEdge g) x v) →
    (unentered g color).card ≤ room →
    ∃ found color', dfs color v = some (found, color') ∧
      ((found = true ∧ HasCycle (HasEdge g)) ∨
        (found = false ∧ Colors g color' path ∧ color' v = 2 ∧ ∀ u, color u = 2 → color' u = 2))

section Colors

variable {color color' : ℕ → ℕ} {path : List ℕ} {v : ℕ}

/-- The search comes to `v`. -/
theorem Colors.enter (h : Colors g color path) (hv : color v = 0) :
    Colors g (Function.update color v 1) (v :: path) := by
  have hsame : ∀ u, Function.update color v 1 u = 2 ↔ color u = 2 := by
    intro u
    by_cases huv : u = v
    · rw [huv, Function.update_self, hv]
      simp
    · rw [Function.update_of_ne huv]
  refine ⟨fun u => ?_, ?_, fun u => ?_⟩
  · by_cases huv : u = v
    · rw [huv, Function.update_self]
      simp
    · rw [Function.update_of_ne huv, h.entered, List.mem_cons, or_iff_right huv]
  · simp only [hsame]
    refine h.painting.enter ?_
    show ¬ color v = 2
    rw [hv]
    decide
  · by_cases huv : u = v
    · rw [huv, Function.update_self]
      decide
    · rw [Function.update_of_ne huv]
      exact h.le_two u

/-- The search leaves `v`. -/
theorem Colors.finish (h : Colors g color (v :: path)) (hpath : v ∉ path)
    (hedges : ∀ w, HasEdge g v w → color w = 2) :
    Colors g (Function.update color v 2) path := by
  have hset : {u | Function.update color v 2 u = 2} = insert v {u | color u = 2} := by
    ext u
    rw [Set.mem_insert_iff, Set.mem_ofPred_eq, Set.mem_ofPred_eq]
    by_cases huv : u = v
    · rw [huv, Function.update_self]
      simp
    · rw [Function.update_of_ne huv, or_iff_right huv]
  refine ⟨fun u => ?_, hset ▸ h.painting.finish hpath hedges, fun u => ?_⟩
  · by_cases huv : u = v
    · rw [huv, Function.update_self]
      exact iff_of_false (by decide) hpath
    · rw [Function.update_of_ne huv, h.entered, List.mem_cons, or_iff_right huv]
  · by_cases huv : u = v
    · rw [huv, Function.update_self]
    · rw [Function.update_of_ne huv]
      exact h.le_two u

/-- No vertex becomes unentered again. -/
theorem Colors.unentered_subset (h : Colors g color path) (h' : Colors g color' path)
    (hleft : ∀ u, color u = 2 → color' u = 2) : unentered g color' ⊆ unentered g color := by
  intro u hu
  obtain ⟨hu, hzero⟩ := Finset.mem_filter.mp hu
  refine Finset.mem_filter.mpr ⟨hu, ?_⟩
  have hle := h.le_two u
  by_contra hne
  rcases (show color u = 1 ∨ color u = 2 by omega) with hone | htwo
  · have hone' := (h'.entered u).mpr ((h.entered u).mp hone)
    omega
  · have htwo' := hleft u htwo
    omega

/-- The loop over the edges out of `v`, by induction on the edges still to come. -/
theorem followDirected_spec {dfs : (ℕ → ℕ) → ℕ → Option (Bool × (ℕ → ℕ))} {room : ℕ}
    (hdfs : ColorSpec g dfs room) : ∀ {es : List (ℕ × WithTop ℚ)} {color : ℕ → ℕ},
      Colors g color (v :: path) → (∀ x ∈ path, Relation.ReflTransGen (HasEdge g) x v) →
      (∀ e ∈ es, HasEdge g v e.1) → (unentered g color).card ≤ room →
      ∃ found color', GraphImpl.followDirected dfs es color = some (found, color') ∧
        ((found = true ∧ HasCycle (HasEdge g)) ∨
          (found = false ∧ Colors g color' (v :: path) ∧ (∀ e ∈ es, color' e.1 = 2) ∧
            ∀ u, color u = 2 → color' u = 2)) := by
  intro es
  induction es with
  | nil =>
    intro color h _ _ _
    exact ⟨false, color, rfl, .inr ⟨rfl, h, by simp, fun _ hu => hu⟩⟩
  | cons e es ih =>
    intro color h hpath hes hroom
    have he := hes e List.mem_cons_self
    have hes' : ∀ e' ∈ es, HasEdge g v e'.1 := fun e' he' => hes e' (List.mem_cons_of_mem _ he')
    have hreach : ∀ x ∈ v :: path, Relation.ReflTransGen (HasEdge g) x v := by
      intro x hx
      rcases List.mem_cons.mp hx with rfl | hx
      · exact .refl
      · exact hpath x hx
    rw [GraphImpl.followDirected]
    by_cases hone : color e.1 = 1
    · -- the edge leads back to the path
      rw [if_pos hone]
      refine ⟨true, color, rfl, .inl ⟨rfl, e.1, ?_⟩⟩
      exact Relation.TransGen.tail' (hreach e.1 ((h.entered _).mp hone)) he
    · rw [if_neg hone]
      by_cases hzero : color e.1 = 0
      · rw [if_pos hzero]
        obtain ⟨found, color₁, hcall, hres⟩ := hdfs h he.mem_right hzero
          (fun x hx => (hreach x hx).tail he) hroom
        rw [hcall]
        rcases hres with ⟨rfl, hcycle⟩ | ⟨rfl, h₁, htwo, hleft⟩
        · exact ⟨true, color₁, rfl, .inl ⟨rfl, hcycle⟩⟩
        · obtain ⟨found, color₂, hloop, hres₂⟩ := ih h₁ hpath hes'
            ((Finset.card_le_card (h.unentered_subset h₁ hleft)).trans hroom)
          refine ⟨found, color₂, hloop, hres₂.imp_right ?_⟩
          rintro ⟨hfound, h₂, hall, hleft₂⟩
          refine ⟨hfound, h₂, fun e' he' => ?_, fun u hu => hleft₂ u (hleft u hu)⟩
          rcases List.mem_cons.mp he' with rfl | he'
          · exact hleft₂ _ htwo
          · exact hall e' he'
      · rw [if_neg hzero]
        have htwo : color e.1 = 2 := by
          have hle := h.le_two e.1
          omega
        obtain ⟨found, color₂, hloop, hres₂⟩ := ih h hpath hes' hroom
        refine ⟨found, color₂, hloop, hres₂.imp_right ?_⟩
        rintro ⟨hfound, h₂, hall, hleft₂⟩
        refine ⟨hfound, h₂, fun e' he' => ?_, hleft₂⟩
        rcases List.mem_cons.mp he' with rfl | he'
        · exact hleft₂ _ htwo
        · exact hall e' he'

end Colors

/-- **A call of `has_cycle_directed_dfs`**, by induction on the fuel: every call enters a vertex. -/
theorem hasCycleDirectedDfs_spec (hwf : WellFormed g) :
    ∀ fuel, ColorSpec g (g.hasCycleDirectedDfs fuel) fuel := by
  intro fuel
  induction fuel with
  | zero =>
    intro color path v _ hv hzero _ hroom
    have hmem : v ∈ unentered g color := Finset.mem_filter.mpr ⟨hv, hzero⟩
    exact absurd (Finset.card_pos.mpr ⟨v, hmem⟩) (by omega)
  | succ fuel ih =>
    intro color path v h hv hzero hpath hroom
    have hnot : v ∉ path := fun hmem => by
      have hone := (h.entered v).mpr hmem
      omega
    have hroom₁ : (unentered g (Function.update color v 1)).card ≤ fuel := by
      have hlt : (unentered g (Function.update color v 1)).card < (unentered g color).card := by
        refine Finset.card_lt_card
          (Finset.ssubset_iff_of_subset (fun u hu => ?_) |>.mpr ⟨v, ?_, ?_⟩)
        · obtain ⟨hu, hu0⟩ := Finset.mem_filter.mp hu
          refine Finset.mem_filter.mpr ⟨hu, ?_⟩
          by_cases huv : u = v
          · rw [huv, hzero]
          · rwa [Function.update_of_ne huv] at hu0
        · exact Finset.mem_filter.mpr ⟨hv, hzero⟩
        · simp [unentered]
      omega
    have hedges : ∀ e ∈ g.outEdges v, HasEdge g v e.1 := fun e he =>
      (mem_outEdges_fst hwf hv).mp (List.mem_map_of_mem he)
    obtain ⟨found, color₁, hloop, hres⟩ :=
      followDirected_spec ih (h.enter hzero) hpath hedges hroom₁
    rw [GraphImpl.hasCycleDirectedDfs, hloop]
    rcases hres with ⟨rfl, hcycle⟩ | ⟨rfl, h₁, hall, hleft⟩
    · exact ⟨true, color₁, rfl, .inl ⟨rfl, hcycle⟩⟩
    · have hall' : ∀ w, HasEdge g v w → color₁ w = 2 := by
        intro w hw
        obtain ⟨e, he, rfl⟩ := List.mem_map.mp ((mem_outEdges_fst hwf hv).mpr hw)
        exact hall e he
      refine ⟨false, _, rfl, .inr ⟨rfl, h₁.finish hnot hall', Function.update_self _ _ _,
        fun u hu => ?_⟩⟩
      by_cases huv : u = v
      · rw [huv, Function.update_self]
      · rw [Function.update_of_ne huv]
        refine hleft u ?_
        rwa [Function.update_of_ne huv]

/-- The loop over the vertices leaves every one of them, or finds a cycle. -/
theorem cycleFromDirected_spec (hwf : WellFormed g) {fuel : ℕ} (hfuel : g.vertexCount ≤ fuel) :
    ∀ {vs : List ℕ} {color : ℕ → ℕ}, Colors g color [] →
      (∀ v ∈ g.vertices, v ∉ vs → color v = 2) →
      ∃ found, g.cycleFromDirected fuel vs color = some found ∧
        (found = true ↔ HasCycle (HasEdge g)) := by
  intro vs
  induction vs with
  | nil =>
    intro color h hall
    refine ⟨false, rfl, iff_of_false (by decide) (h.painting.not_hasCycle fun u v huv => ?_)⟩
    exact hall u (hasEdge_cast.mp huv).1 List.not_mem_nil
  | cons v vs ih =>
    intro color h hall
    rw [GraphImpl.cycleFromDirected]
    split
    · next hskip =>
      refine ih h fun u hu hnot => ?_
      by_cases huv : u = v
      · subst huv
        rw [GraphImpl.isValidVertex_cast.mpr hu] at hskip
        have hne : color u ≠ 0 := hskip.resolve_left (by simp)
        have hone : color u ≠ 1 := fun hone => List.not_mem_nil ((h.entered u).mp hone)
        have hle := h.le_two u
        omega
      · exact hall u hu (by simp [huv, hnot])
    · next hnot =>
      obtain ⟨hvalid, hzero⟩ := not_or.mp hnot
      have hv : v ∈ g.vertices := GraphImpl.isValidVertex_cast.mp (by simpa using hvalid)
      have hroom : (unentered g color).card ≤ fuel :=
        (Finset.card_filter_le _ _).trans (hwf.count ▸ hfuel)
      obtain ⟨found, color₁, hcall, hres⟩ :=
        hasCycleDirectedDfs_spec hwf fuel h hv (not_not.mp hzero) (by simp) hroom
      rw [hcall]
      rcases hres with ⟨rfl, hcycle⟩ | ⟨rfl, h₁, htwo, hleft⟩
      · exact ⟨true, rfl, iff_of_true rfl hcycle⟩
      · refine ih h₁ fun u hu hnot => ?_
        by_cases huv : u = v
        · rw [huv, htwo]
        · exact hleft u (hall u hu (by simp [huv, hnot]))

theorem hasCycle_spec (hwf : WellFormed g) (hdirected : g.type = .directed) {fuel : ℕ}
    (hfuel : g.vertexCount ≤ fuel) : ∃ found, g.hasCycle fuel Allocator.always = some found ∧
      (found = true ↔ HasCycle (HasEdge g)) := by
  have hcolors : Colors g (fun _ => 0) [] := by
    refine ⟨fun u => by simp, ?_, fun u => by simp⟩
    have hempty : {u : ℕ | (fun _ : ℕ => (0 : ℕ)) u = 2} = ∅ := by simp
    rw [hempty]
    exact .start _
  obtain ⟨found, hloop, hfound⟩ := @cycleFromDirected_spec _ hwf _ hfuel
    (List.range g.vertexCapacity) _ hcolors fun v hv hnot =>
      absurd (List.mem_range.mpr (GraphImpl.mem_vertices.mp hv).1) hnot
  refine ⟨found, ?_, hfound⟩
  rw [GraphImpl.hasCycle, Allocator.alloc_always, hdirected]
  exact hloop

/-! ## Both functions

One is about an order, the other about a cycle; the general theory has the equivalence. -/

/-- **Topological sorting and cycle detection agree.** With allocations succeeding both calls
return; the sort returns `NULL` exactly when the graph has a directed cycle, exactly when the other
call returns true, and otherwise the pointers to the vertices in topological order. -/
theorem topologicalSort_correct (hg : Built g) (hdirected : g.type = .directed) {fuel : ℕ}
    (hfuel : g.vertexCount < fuel) :
    ∃ out found, g.topologicalSort fuel Allocator.always = some out ∧
      g.hasCycle fuel Allocator.always = some found ∧
      (out = none ↔ HasCycle (HasEdge g)) ∧ (found = true ↔ HasCycle (HasEdge g)) ∧
      ∀ l, out = some l → ∃ order, l.items = order.map some ∧
        IsTopologicalOrder (HasEdge g) g.vertices order := by
  obtain ⟨found, hfound, hiff⟩ := hasCycle_spec hg.wellFormed hdirected hfuel.le
  rcases topologicalSort_spec hg.wellFormed hg.hasPtrs hdirected hfuel with
    ⟨hsort, hcycle⟩ | ⟨l, order, hsort, hitems, horder⟩
  · exact ⟨none, found, hsort, hfound, iff_of_true rfl hcycle, hiff,
      fun l hl => absurd hl (by simp)⟩
  · refine ⟨some l, found, hsort, hfound, iff_of_false (by simp) horder.not_hasCycle, hiff,
      fun l' hl' => ?_⟩
    obtain rfl := Option.some.inj hl'
    exact ⟨order, hitems, horder⟩

theorem topologicalSort_correct_path :
    ∃ g, build (fun _ => 0) .directed .adjacencyMatrix .bfs .dijkstra Allocator.always
        [.addEdge 1 0 1, .addEdge 0 20 1] = some (g, Allocator.always) ∧
      ∃ out found, g.topologicalSort (g.vertexCount + 1) Allocator.always = some out ∧
        g.hasCycle (g.vertexCount + 1) Allocator.always = some found ∧
        (out = none ↔ HasCycle (HasEdge g)) ∧ (found = true ↔ HasCycle (HasEdge g)) ∧
        ∀ l, out = some l → ∃ order, l.items = order.map some ∧
          IsTopologicalOrder (HasEdge g) g.vertices order := by
  have hscope : ∀ c ∈ [Call.addEdge 1 0 1, .addEdge 0 20 1], c.InScope := by decide
  obtain ⟨g, hg, hrepr, -⟩ :=
    build_represents (fun _ => 0) .directed .adjacencyMatrix .bfs .dijkstra hscope
  have hdirected : g.type = .directed := hrepr.type_eq.trans (AbstractGraph.ofCalls_type _ _)
  exact ⟨g, hg, topologicalSort_correct ⟨_, _, _, _, _, _, _, _, hg⟩ hdirected
    (Nat.lt_succ_self _)⟩

end Graph

end OvaLib
