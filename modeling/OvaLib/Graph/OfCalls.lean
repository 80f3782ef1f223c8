import OvaLib.Graph.BellmanFord
import OvaLib.Graph.Dijkstra
import OvaLib.Graph.FloydWarshall
import OvaLib.Graph.TopologicalSort

/-!
# The algorithms on the graph that calls describe

The theorems about the algorithms speak of the weights and vertices that the graph itself reports
(`GraphImpl.weights`, `GraphImpl.vertices`), which are what the algorithms read. That is the right
place to state them: a graph whose construction ran out of memory half way, or that has ids beyond
the range of a matrix, is a graph too, and the algorithms are right about what is stored there.

A caller, however, knows only the calls made. `AbstractGraph.ofCalls` says what these mean, with no
reference to lists, matrices or capacities, and `build_represents_below` says that with allocations
succeeding, and ids below the bound of the representation, the graph built stores just that. Here
the two are put together, so that what an algorithm returns is stated in terms of the calls alone.

## Scope

The bound on the ids is `2 ^ 30` for lists and `32768` for matrices, where the index of a cell is
an `int` and a larger id makes it wrap. One lemma carries everything over, `exists_build_ofCalls`;
the corollaries after it are those for the paths and for cycles, the others go the same way.

## Main results

* `exists_build_ofCalls` — the graph built, its weights, vertices and edges
* `dijkstra_ofCalls`, `bellmanFord_ofCalls`, `floydWarshall_ofCalls` — the paths
* `hasCycle_ofCalls` — the cycles of a directed graph
-/

namespace OvaLib

namespace Graph

open Foundation

/-- The edges that a caller sees are the pairs with a weight. -/
theorem Represents.hasEdge_cast_iff {g : GraphImpl} {A : AbstractGraph} (h : Represents g A)
    (u v : ℕ) : HasEdge g u v ↔ A.weight (u, v) ≠ ⊤ := by
  rw [HasEdge, h.hasEdge_iff, Int.toNat_natCast, Int.toNat_natCast]
  exact ⟨fun hedge => hedge.2.2, fun hedge => ⟨Int.natCast_nonneg u, Int.natCast_nonneg v, hedge⟩⟩

namespace AbstractGraph

/-- The weight of each ordered pair. -/
def weights (A : AbstractGraph) (u v : ℕ) : WithTop ℚ := A.weight (u, v)

/-- The pairs with a weight. -/
def Adjacent (A : AbstractGraph) (u v : ℕ) : Prop := A.weight (u, v) ≠ ⊤

end AbstractGraph

section OfCalls

variable (junk : ℤ → WithTop ℚ) (type : GraphType) (rep : GraphRepresentation)
  (ts : TraversalStrategy) (ms : MinPathStrategy) {calls : List Call}

/-- What a list of calls builds, against what it means. -/
structure BuiltAs (type : GraphType) (calls : List Call) (g : GraphImpl) : Prop where
  built : Built g
  type_eq : g.type = type
  weights_eq : g.weights = (AbstractGraph.ofCalls type calls).weights
  vertices_eq : g.vertices = (AbstractGraph.ofCalls type calls).vertices
  hasEdge_eq : HasEdge g = (AbstractGraph.ofCalls type calls).Adjacent

/-- **The graph that is built is the one the calls describe.** -/
theorem exists_build_ofCalls (hcalls : ∀ c ∈ calls, c.Below (2 ^ rep.maxLog)) :
    ∃ g, build junk type rep ts ms Allocator.always calls = some (g, Allocator.always) ∧
      BuiltAs type calls g := by
  obtain ⟨g, hg, hrepr, -⟩ := build_represents_below junk type rep ts ms hcalls
  refine ⟨g, hg, ⟨_, _, _, _, _, _, _, _, hg⟩, ?_, ?_, hrepr.vertices_eq, ?_⟩
  · exact hrepr.type_eq.trans (AbstractGraph.ofCalls_type type calls)
  · exact funext fun u => funext fun v => hrepr.weights_eq u v
  · exact funext fun u => funext fun v => propext (hrepr.hasEdge_cast_iff u v)

variable {g : GraphImpl} {s : ℕ}

theorem BuiltAs.hasVertex (h : BuiltAs type calls g)
    (hs : s ∈ (AbstractGraph.ofCalls type calls).vertices) : g.hasVertex (s : ℤ) = true := by
  rw [← h.vertices_eq, GraphImpl.mem_vertices] at hs
  exact GraphImpl.hasVertex_cast.mpr hs

/-- The Bellman–Ford algorithm on the graph that the calls describe. -/
theorem bellmanFord_ofCalls (hcalls : ∀ c ∈ calls, c.Below (2 ^ rep.maxLog))
    (hs : s ∈ (AbstractGraph.ofCalls type calls).vertices) :
    ∃ g, build junk type rep ts ms Allocator.always calls = some (g, Allocator.always) ∧
      ((NegativeCycle (AbstractGraph.ofCalls type calls).weights s ∧
          g.bellmanFord s Allocator.always = ⟨0, none⟩) ∨
        ∃ d, IsDistance (AbstractGraph.ofCalls type calls).weights s d ∧
          g.bellmanFord s Allocator.always = ⟨1, some ⟨g.vertexCapacity, d⟩⟩) := by
  obtain ⟨g, hg, h⟩ := exists_build_ofCalls junk type rep ts ms hcalls
  have hcases := bellmanFord_cases h.built (h.hasVertex type hs)
  rw [h.weights_eq, Int.toNat_natCast] at hcases
  exact ⟨g, hg, hcases.imp_right And.right⟩

/-- Dijkstra's algorithm on the graph that the calls describe. -/
theorem dijkstra_ofCalls (hcalls : ∀ c ∈ calls, c.Below (2 ^ rep.maxLog))
    (hs : s ∈ (AbstractGraph.ofCalls type calls).vertices)
    (hcycle : ¬ NegativeCycle (AbstractGraph.ofCalls type calls).weights s) :
    ∃ g, build junk type rep ts ms Allocator.always calls = some (g, Allocator.always) ∧
      (QueueHasRoom g s → ∃ d, IsDistance (AbstractGraph.ofCalls type calls).weights s d ∧
        ∃ bound, ∀ fuel ≥ bound,
          g.dijkstra fuel s Allocator.always = some ⟨1, some ⟨g.vertexCapacity, d⟩⟩) := by
  obtain ⟨g, hg, h⟩ := exists_build_ofCalls junk type rep ts ms hcalls
  rw [← h.weights_eq] at hcycle ⊢
  exact ⟨g, hg, dijkstra_ends h.built (h.hasVertex type hs) hcycle⟩

/-- The Floyd–Warshall algorithm on the graph that the calls describe. -/
theorem floydWarshall_ofCalls (hcalls : ∀ c ∈ calls, c.Below (2 ^ rep.maxLog))
    (hcycle : ∀ s, ¬ NegativeCycle (AbstractGraph.ofCalls type calls).weights s) :
    ∃ g dist, build junk type rep ts ms Allocator.always calls = some (g, Allocator.always) ∧
      g.floydWarshall .always = some dist ∧
      ∀ s ∈ (AbstractGraph.ofCalls type calls).vertices, ∃ d,
        IsDistance (AbstractGraph.ofCalls type calls).weights s d ∧
          ∀ v < g.vertexCapacity, dist.data s v = d v := by
  obtain ⟨g, hg, h⟩ := exists_build_ofCalls junk type rep ts ms hcalls
  rw [← h.weights_eq] at hcycle ⊢
  rw [← h.vertices_eq]
  obtain ⟨dist, hreturn, -, -, hall⟩ := floydWarshall_spec h.built.wellFormed hcycle
  refine ⟨g, dist, hg, hreturn, fun s hs => ⟨_, hall.isDistance (fun u v hne =>
    Finset.mem_coe.mpr (GraphImpl.mem_of_weights_ne_top hne).1) (Finset.mem_coe.mpr hs),
    fun v hv => (GraphImpl.entries_of_lt (GraphImpl.mem_vertices.mp hs).1 hv).symm⟩⟩

/-- The test for a cycle on the directed graph that the calls describe. -/
theorem hasCycle_ofCalls (hcalls : ∀ c ∈ calls, c.Below (2 ^ rep.maxLog)) :
    ∃ g, build junk .directed rep ts ms Allocator.always calls = some (g, Allocator.always) ∧
      ∀ fuel ≥ g.vertexCount, ∃ found, g.hasCycle fuel Allocator.always = some found ∧
        (found = true ↔ HasCycle (AbstractGraph.ofCalls .directed calls).Adjacent) := by
  obtain ⟨g, hg, h⟩ := exists_build_ofCalls junk .directed rep ts ms hcalls
  rw [← h.hasEdge_eq]
  exact ⟨g, hg, fun fuel hfuel => hasCycle_spec h.built.wellFormed h.type_eq hfuel⟩

end OfCalls

end Graph

end OvaLib
