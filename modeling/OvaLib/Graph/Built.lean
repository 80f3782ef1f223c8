import Mathlib.Data.Finset.Filter
import OvaLib.Graph.CallCases
import OvaLib.Graph.GraphRefinement

/-!
# Graphs as the algorithms see them

What the functions of `graph_algorithms.c` share: the test for a vertex, and the loop over the
edges out of a vertex, which reads the adjacency list or the matrix row directly. The edges it
comes to are those that `graph_get_edge_weight_impl` reports, for every graph that calls can build,
with whatever ids and whatever allocations failing.

## The contract of the algorithms

An algorithm is about the weights that a caller of the graph sees: `weights g u v` is what
`get_edge_weight` returns, and `vertices g` are the ids of which `has_vertex` says yes. Its theorem
holds of every graph that is `Built`, and a graph is built by any calls from a new one. There is no
bound on the ids and no assumption on the allocations, so a graph may have lost edges to a failed
call, and a matrix may be read and written at indices that have wrapped. None of this concerns an
algorithm: it reads the same cells that the caller reads, and is right about what it reads.

What the calls make of those weights is said elsewhere. For ids below 32768 and with memory enough
they are the weights of the abstract graph that the calls describe, and the theorems of the
algorithms can be read off that graph.

## What every graph keeps

`WellFormed` is the part of the representation invariant that survives everything: the heads in an
adjacency list are distinct, the vertices are counted, and the capacity is a positive `int`. It is
proved operation by operation, because a call can give up after any of its allocations. Distinct
heads are what makes the loop over the edges and `find_edge` agree about a weight.

`HasPtrs` says that the pointer of every vertex is set. The algorithms hand out these pointers, and
a `NULL` among them would look like an error of their own.

## Scope

There are self loops, but no parallel edges: a list has at most one edge to each head, and a second
`add_edge` overwrites its weight. An edge that was added with infinite weight is an edge of the list
graph, where `has_edge` finds it, and none of the matrix graph. So the searches are stated with what
`has_edge` says and the weighted algorithms with weights, and each is right in both representations.

## Main results

* `Built.wellFormed`, `Built.hasPtrs` — what every graph keeps
* `mem_outEdges` — the loop over the edges against the weights a caller sees
-/

namespace OvaLib

namespace Graph

open Foundation (Lists support)
open GraphImpl (Edges)

namespace GraphImpl

/-! ## The model -/

/-- `graph_is_valid_vertex`. The algorithms have a test of their own for ids, and it agrees with the
one that a caller can make. -/
def isValidVertex (g : GraphImpl) (v : ℤ) : Bool :=
  0 ≤ v ∧ v < g.vertexCapacity ∧ g.present v.toNat

/-- The heads and weights of the edges out of `v` that are not skipped, in the order in which the
loops over the adjacency list and over the matrix row come to them. The loops skip heads that are no
vertices and, in a matrix, cells without a weight; what they do with the rest is theirs. -/
def outEdges (g : GraphImpl) (v : ℕ) : List (ℕ × WithTop ℚ) :=
  match g.rep with
  | .adjacencyList =>
    match g.adjLists v with
    | none => []
    | some adj => (adj.items.filter fun e => g.isValidVertex e.toVertex).map fun e =>
        (e.toVertex, e.weight)
  | .adjacencyMatrix =>
    (((List.range g.vertexCapacity).filter fun toVertex : ℕ => g.isValidVertex toVertex).map
      fun toVertex => (toVertex, g.adjMatrix (g.cell v toVertex))).filter fun e => e.2 ≠ ⊤

/-- The weight of an ordered pair, as a caller of the graph sees it: infinite where there is no
edge. The ids are natural numbers, since no vertex has a negative one. -/
def weights (g : GraphImpl) (u v : ℕ) : WithTop ℚ := g.getEdgeWeight u v

/-- The vertices, as a caller of the graph sees them. -/
def vertices (g : GraphImpl) : Finset ℕ :=
  (Finset.range g.vertexCapacity).filter fun v => g.hasVertex v = true

/-! ## Vertices -/

variable {g : GraphImpl} {u v : ℕ}

theorem hasVertex_cast :
    g.hasVertex (v : ℤ) = true ↔ v < g.vertexCapacity ∧ g.present v = true := by
  rw [hasVertex]
  split
  · next h =>
    simp only [Bool.false_eq_true, false_iff, not_and]
    omega
  · next h =>
    rw [Int.toNat_natCast]
    exact ⟨fun hp => ⟨by omega, hp⟩, fun hp => hp.2⟩

theorem isValidVertex_eq (x : ℤ) : g.isValidVertex x = g.hasVertex x := by
  rw [Bool.eq_iff_iff]
  rw [isValidVertex, hasVertex]
  rw [decide_eq_true_iff]
  split
  · next h =>
    simp only [Bool.false_eq_true, iff_false]
    omega
  · next h => exact ⟨fun hp => hp.2.2, fun hp => ⟨by omega, by omega, hp⟩⟩

theorem mem_vertices : v ∈ g.vertices ↔ v < g.vertexCapacity ∧ g.present v = true := by
  rw [vertices, Finset.mem_filter, Finset.mem_range, hasVertex_cast]
  exact ⟨fun h => h.2, fun h => ⟨h.1, h⟩⟩

theorem isValidVertex_cast : g.isValidVertex (v : ℤ) = true ↔ v ∈ g.vertices := by
  rw [isValidVertex_eq, hasVertex_cast, mem_vertices]

theorem mem_vertices_of_hasVertex {start : ℤ} (h : g.hasVertex start = true) :
    start.toNat ∈ g.vertices := by
  rw [← isValidVertex_eq] at h
  obtain ⟨hlow, hhigh, hpresent⟩ := of_decide_eq_true h
  exact mem_vertices.mpr ⟨by omega, hpresent⟩

/-- Only vertices have edges. -/
theorem mem_of_weights_ne_top (h : g.weights u v ≠ ⊤) : u ∈ g.vertices ∧ v ∈ g.vertices := by
  by_contra hnot
  refine h ?_
  rw [weights, getEdgeWeight]
  rw [if_pos]
  rw [Bool.or_eq_true, Bool.not_eq_true', Bool.not_eq_true', ← Bool.not_eq_true,
    ← Bool.not_eq_true, hasVertex_cast, hasVertex_cast, ← mem_vertices, ← mem_vertices]
  tauto

theorem weights_eq (hu : u ∈ g.vertices) (hv : v ∈ g.vertices) :
    g.weights u v = match g.rep with
      | .adjacencyList => g.adjListGetEdgeWeight u v
      | .adjacencyMatrix => g.adjMatrixGetEdgeWeight u v := by
  rw [weights, getEdgeWeight]
  rw [hasVertex_cast.mpr (mem_vertices.mp hu), hasVertex_cast.mpr (mem_vertices.mp hv)]
  rfl

end GraphImpl

/-! ## What every graph keeps -/

/-- What every graph keeps. It says nothing of which edges there are: a failed call may have lost
one, or left it in one of the two lists of an undirected graph. -/
structure WellFormed (g : GraphImpl) : Prop where
  /-- Every adjacency list has distinct heads, and stands for a map from heads to weights. -/
  edges : ∀ u adj, g.adjLists u = some adj → ∃ M, Edges adj M
  /-- The count is the number of set flags. -/
  count : g.vertexCount = g.vertices.card
  capacity_pos : 0 < g.vertexCapacity
  capacity_le : g.vertexCapacity ≤ intMax

/-- There are fewer vertices than an `int` counts. -/
theorem WellFormed.card_vertices_le {g : GraphImpl} (h : WellFormed g) :
    g.vertices.card ≤ intMax := by
  have hcard : g.vertices.card ≤ (Finset.range g.vertexCapacity).card :=
    Finset.card_le_card (Finset.filter_subset _ _)
  rw [Finset.card_range] at hcard
  exact hcard.trans h.capacity_le

/-- A graph that calls built from a new one, whatever the calls, and whichever of the allocations
failed. The cells of a matrix that were never written hold anything at all, as the parameter `junk`
says. -/
def Built (g : GraphImpl) : Prop :=
  ∃ junk type rep ts ms a a' calls, build junk type rep ts ms a calls = some (g, a')

section WellFormed

variable {g g' : GraphImpl} (junk : ℤ → WithTop ℚ)

/-- A change of the edges alone. -/
theorem WellFormed.of_edges (h : WellFormed g) (hcap : g'.vertexCapacity = g.vertexCapacity)
    (hcount : g'.vertexCount = g.vertexCount) (hpresent : g'.present = g.present)
    (hedges : ∀ u adj, g'.adjLists u = some adj → ∃ M, Edges adj M) : WellFormed g' where
  edges := hedges
  count := by
    have hvertices : g'.vertices = g.vertices := by
      ext v
      rw [GraphImpl.mem_vertices, GraphImpl.mem_vertices, hcap, hpresent]
    rw [hcount, hvertices, h.count]
  capacity_pos := hcap ▸ h.capacity_pos
  capacity_le := hcap ▸ h.capacity_le

/-- What the doubling loop returns is what was asked for, and an `int`. That it may not return at
all is another matter, and the subject of `Capacity`. -/
theorem doubleUntil_bounds {required : ℤ} : ∀ {fuel : ℕ} {newCap result : ℤ},
    newCap ≤ intMax → GraphImpl.doubleUntil fuel newCap required = some result →
      required ≤ result ∧ result ≤ intMax := by
  intro fuel
  induction fuel with
  | zero => exact fun _ h => absurd h (by simp [GraphImpl.doubleUntil])
  | succ fuel ih =>
    intro newCap result hnew h
    rw [GraphImpl.doubleUntil] at h
    split at h
    · exact ih (int32_le _) h
    · next hge =>
      obtain rfl := Option.some.inj h
      exact ⟨by omega, hnew⟩

theorem WellFormed.reallocate (h : WellFormed g) {newCap : ℕ} (hle : g.vertexCapacity ≤ newCap)
    (hmax : newCap ≤ intMax) (a : Allocator) : WellFormed (g.reallocate junk newCap a).1 := by
  rcases GraphImpl.reallocate_cases junk g newCap a with ⟨-, hsame⟩ | ⟨-, hgrown⟩
  · rw [hsame]
    exact h
  · rw [hgrown]
    refine ⟨fun u adj hadj => h.edges u adj (GraphImpl.adjLists_of_grown junk hadj), ?_,
      h.capacity_pos.trans_le hle, hmax⟩
    have hvertices : (g.grown junk newCap).vertices = g.vertices := by
      ext v
      rw [GraphImpl.mem_vertices, GraphImpl.mem_vertices]
      show v < newCap ∧ (if v < g.vertexCapacity then g.present v else false) = true ↔ _
      split
      · next hv => exact ⟨fun hp => ⟨hv, hp.2⟩, fun hp => ⟨by omega, hp.2⟩⟩
      · next hv => simp [hv]
    rw [hvertices]
    exact h.count

theorem WellFormed.ensureCapacity (h : WellFormed g) {id : ℤ} {a a' : Allocator}
    (hg' : g.ensureCapacity junk id a = some (g', a')) : WellFormed g' := by
  rcases GraphImpl.ensureCapacity_cases junk hg' with ⟨rfl, -⟩ | ⟨newCap, -, hgt, hloop, rfl⟩
  · exact h
  · rw [if_pos h.capacity_pos] at hloop
    obtain ⟨hreq, hmax⟩ := doubleUntil_bounds (by exact_mod_cast h.capacity_le) hloop
    exact h.reallocate junk (by omega) (by omega) a

theorem WellFormed.enterVertex (h : WellFormed g) {v : ℕ} (hv : v < g.vertexCapacity)
    (hnew : ¬ g.present v = true) (a : Allocator) : WellFormed (g.enterVertex v a).1 := by
  have hentered : ∀ g' : GraphImpl, g'.vertexCapacity = g.vertexCapacity →
      g'.vertexCount = g.vertexCount + 1 → g'.present = Function.update g.present v true →
      (∀ u adj, g'.adjLists u = some adj → ∃ M, Edges adj M) → WellFormed g' := by
    intro g' hcap hcount hpresent hedges
    refine ⟨hedges, ?_, hcap ▸ h.capacity_pos, hcap ▸ h.capacity_le⟩
    have hvertices : g'.vertices = insert v g.vertices := by
      ext u
      rw [GraphImpl.mem_vertices, Finset.mem_insert, GraphImpl.mem_vertices, hcap, hpresent,
        Function.update_apply]
      split
      · next huv => simp [huv, hv]
      · next huv => simp [huv]
    have hnotin : v ∉ g.vertices := fun hmem => hnew (GraphImpl.mem_vertices.mp hmem).2
    rw [hcount, hvertices, Finset.card_insert_of_notMem hnotin, h.count]
  rw [GraphImpl.enterVertex]
  dsimp only
  split
  · exact h
  · split
    · refine hentered _ rfl rfl rfl fun u adj hadj => ?_
      by_cases hu : u = v
      · subst hu
        simp only [Function.update_self] at hadj
        refine ⟨fun _ => none, ?_⟩
        have hnil : adj.items = [] := ArrayList.items_of_create hadj
        show Lists _ _ adj.items _
        rw [hnil]
        exact Lists.nil
      · simp only [Function.update_of_ne hu] at hadj
        exact h.edges u adj hadj
    · exact hentered _ rfl rfl rfl h.edges

theorem WellFormed.addVertex (h : WellFormed g) {id : ℤ} {a a' : Allocator}
    (hg' : g.addVertex junk id a = some (g', a')) : WellFormed g' := by
  rcases GraphImpl.addVertex_cases junk hg' with ⟨rfl, -⟩ |
    ⟨g₁, a₁, -, hg₁, rfl | ⟨hlt, hnew, rfl⟩⟩
  · exact h
  · exact h.ensureCapacity junk hg₁
  · exact (h.ensureCapacity junk hg₁).enterVertex hlt hnew a₁

theorem WellFormed.setAdjList (h : WellFormed g) (u : ℕ) {adj : ArrayList GraphEdge}
    {M : ℕ → Option (WithTop ℚ)} (hadj : Edges adj M) : WellFormed (g.setAdjList u adj) := by
  refine h.of_edges rfl rfl rfl fun v adj' hadj' => ?_
  by_cases hv : v = u
  · subst hv
    simp only [GraphImpl.setAdjList, Function.update_self, Option.some.injEq] at hadj'
    subst hadj'
    exact ⟨M, hadj⟩
  · simp only [GraphImpl.setAdjList, Function.update_of_ne hv] at hadj'
    exact h.edges v adj' hadj'

theorem WellFormed.ensureAdjList (h : WellFormed g) (u : ℕ) (a : Allocator) :
    WellFormed (g.ensureAdjList u a).2.1 ∧
      ∀ adj, (g.ensureAdjList u a).1 = some adj → ∃ M, Edges adj M := by
  rw [GraphImpl.ensureAdjList]
  split
  · next adj hadj => exact ⟨h, fun adj' hadj' => Option.some.inj hadj' ▸ h.edges u adj hadj⟩
  · next hnone =>
    have hnil : ∀ adj, (ArrayList.create 4 a).1 = some adj → Edges adj fun _ => none := by
      intro adj hadj
      show Lists _ _ adj.items _
      rw [ArrayList.items_of_create hadj]
      exact Lists.nil
    refine ⟨h.of_edges rfl rfl rfl fun v adj hadj => ?_, fun adj hadj => ⟨_, hnil adj hadj⟩⟩
    by_cases hv : v = u
    · subst hv
      simp only [Function.update_self] at hadj
      exact ⟨_, hnil adj hadj⟩
    · simp only [Function.update_of_ne hv] at hadj
      exact h.edges v adj hadj

theorem WellFormed.addOneEdge (h : WellFormed g) (u v : ℕ) (w : WithTop ℚ) (a : Allocator) :
    WellFormed (g.addOneEdge u v w a).1 := by
  obtain ⟨hwf, hedges⟩ := h.ensureAdjList u a
  rw [GraphImpl.addOneEdge]
  cases hensure : g.ensureAdjList u a with
  | mk found rest =>
    obtain ⟨g₁, a₁⟩ := rest
    rw [hensure] at hwf hedges
    cases found with
    | none => exact hwf
    | some adj =>
      obtain ⟨M, hadj⟩ := hedges adj rfl
      obtain ⟨M', hadj'⟩ := GraphImpl.writeEdge_edges v hadj w a₁
      exact hwf.setAdjList u hadj'

theorem WellFormed.removeOneEdge (h : WellFormed g) (u v : ℕ) :
    WellFormed (g.removeOneEdge u v) := by
  rw [GraphImpl.removeOneEdge]
  cases hadj : g.adjLists u with
  | none => exact h
  | some adj =>
    obtain ⟨M, hedges⟩ := h.edges u adj hadj
    exact h.setAdjList u (GraphImpl.eraseEdge_edges v hedges)

theorem WellFormed.setCells (h : WellFormed g) (u v : ℕ) (w : WithTop ℚ) :
    WellFormed (g.setCells u v w) := by
  unfold GraphImpl.setCells
  dsimp only
  split <;> exact h.of_edges rfl rfl rfl h.edges

theorem WellFormed.adjListAddEdge (h : WellFormed g) (u v : ℕ) (w : WithTop ℚ) (a : Allocator) :
    WellFormed (g.adjListAddEdge u v w a).1 := by
  have hfirst := h.addOneEdge u v w a
  rw [GraphImpl.adjListAddEdge]
  dsimp only
  split
  · exact hfirst.addOneEdge _ _ _ _
  · exact hfirst

theorem WellFormed.addEdge (h : WellFormed g) {x y : ℤ} {w : WithTop ℚ} {a a' : Allocator}
    (hg' : g.addEdge junk x y w a = some (g', a')) : WellFormed g' := by
  rcases GraphImpl.addEdge_cases junk hg' with ⟨rfl, -⟩ | ⟨g₁, a₁, g₂, a₂, -, -, hg₁, hg₂, hrest⟩
  · exact h
  · have htwo := (h.addVertex junk hg₁).addVertex junk hg₂
    rcases hrest with rfl | ⟨-, -, ⟨-, rfl⟩ | ⟨-, rfl⟩⟩
    · exact htwo
    · exact htwo.adjListAddEdge _ _ _ _
    · exact htwo.setCells _ _ _

theorem WellFormed.removeEdge (h : WellFormed g) (x y : ℤ) : WellFormed (g.removeEdge x y) := by
  rw [GraphImpl.removeEdge]
  split
  · exact h
  · split
    · unfold GraphImpl.adjListRemoveEdge
      dsimp only
      split
      · exact (h.removeOneEdge _ _).removeOneEdge _ _
      · exact h.removeOneEdge _ _
    · exact h.setCells _ _ _

theorem WellFormed.run (h : WellFormed g) {c : Call} {a a' : Allocator}
    (hg' : c.run junk g a = some (g', a')) : WellFormed g' := by
  cases c with
  | addVertex v => exact h.addVertex junk hg'
  | addEdge u v w => exact h.addEdge junk hg'
  | removeEdge u v =>
    obtain ⟨rfl, -⟩ := Prod.mk.inj (Option.some.inj hg')
    exact h.removeEdge u v

theorem create_wellFormed {type : GraphType} {rep : GraphRepresentation} {ts : TraversalStrategy}
    {ms : MinPathStrategy} {a : Allocator}
    (h : (GraphImpl.create junk type rep ts ms a).1 = some g) : WellFormed g := by
  obtain rfl := create_eq_some junk h
  refine ⟨fun u adj hadj => absurd hadj (by simp), ?_, show 0 < 8 by decide,
    show 8 ≤ intMax by decide⟩
  symm
  rw [Finset.card_eq_zero, Finset.eq_empty_iff_forall_notMem]
  intro v hv
  exact absurd (GraphImpl.mem_vertices.mp hv).2 (by simp)

/-- What every graph keeps: its lists are edge lists, and it counts its vertices. -/
theorem Built.wellFormed (h : Built g) : WellFormed g := by
  obtain ⟨junk, type, rep, ts, ms, a, a', calls, hbuild⟩ := h
  exact build_induction junk (fun g a => create_wellFormed junk)
    (fun g a c g' a' hg hrun => hg.run junk hrun) hbuild

/-! ## Vertex pointers

A pointer is set before its flag and never cleared, and growth copies both arrays over the same
range. So a vertex never lacks its pointer, not even in a graph that has run out of memory. -/

/-- The pointers a graph hands out for its vertices are set. -/
def HasPtrs (g : GraphImpl) : Prop := ∀ v ∈ g.vertices, g.vertexPtrs v = some v

/-- Only the edges differ. -/
structure SameVertices (g g' : GraphImpl) : Prop where
  capacity : g'.vertexCapacity = g.vertexCapacity
  present : g'.present = g.present
  ptrs : g'.vertexPtrs = g.vertexPtrs

theorem SameVertices.hasPtrs (h : SameVertices g g') (hg : HasPtrs g) : HasPtrs g' := by
  intro v hv
  rw [GraphImpl.mem_vertices, h.capacity, h.present] at hv
  rw [h.ptrs]
  exact hg v (GraphImpl.mem_vertices.mpr hv)

theorem sameVertices_of_edgesOnly (h : GraphImpl.EdgesOnly g g') : SameVertices g g' :=
  ⟨h.capacity, h.present, h.ptrs⟩

theorem HasPtrs.reallocate (h : HasPtrs g) (newCap : ℕ) (a : Allocator) :
    HasPtrs (g.reallocate junk newCap a).1 := by
  rcases GraphImpl.reallocate_cases junk g newCap a with ⟨-, hsame⟩ | ⟨-, hgrown⟩
  · rw [hsame]
    exact h
  · rw [hgrown]
    intro v hv
    obtain ⟨-, hp⟩ := GraphImpl.mem_vertices.mp hv
    change (if v < g.vertexCapacity then g.present v else false) = true at hp
    show (if v < g.vertexCapacity then g.vertexPtrs v else none) = some v
    split at hp
    · next hlt =>
      rw [if_pos hlt]
      exact h v (GraphImpl.mem_vertices.mpr ⟨hlt, hp⟩)
    · exact absurd hp (by simp)

theorem HasPtrs.ensureCapacity (h : HasPtrs g) {id : ℤ} {a a' : Allocator}
    (hg' : g.ensureCapacity junk id a = some (g', a')) : HasPtrs g' := by
  rcases GraphImpl.ensureCapacity_cases junk hg' with ⟨rfl, -⟩ | ⟨newCap, -, -, -, rfl⟩
  · exact h
  · exact h.reallocate junk newCap.toNat a

theorem HasPtrs.enterVertex (h : HasPtrs g) (v : ℕ) (a : Allocator) :
    HasPtrs (g.enterVertex v a).1 := by
  have hentered : ∀ g' : GraphImpl, g'.vertexCapacity = g.vertexCapacity →
      g'.present = Function.update g.present v true →
      g'.vertexPtrs = Function.update g.vertexPtrs v (some v) → HasPtrs g' := by
    intro g' hcap hpresent hptrs u hu
    obtain ⟨hlt, hp⟩ := GraphImpl.mem_vertices.mp hu
    rw [hcap] at hlt
    rw [hpresent] at hp
    rw [hptrs]
    by_cases huv : u = v
    · rw [huv, Function.update_self]
    · rw [Function.update_of_ne huv] at hp ⊢
      exact h u (GraphImpl.mem_vertices.mpr ⟨hlt, hp⟩)
  rw [GraphImpl.enterVertex]
  dsimp only
  split
  · exact h
  · split <;> exact hentered _ rfl rfl rfl

theorem HasPtrs.addVertex (h : HasPtrs g) {id : ℤ} {a a' : Allocator}
    (hg' : g.addVertex junk id a = some (g', a')) : HasPtrs g' := by
  rcases GraphImpl.addVertex_cases junk hg' with ⟨rfl, -⟩ | ⟨g₁, a₁, -, hg₁, rfl | ⟨-, -, rfl⟩⟩
  · exact h
  · exact h.ensureCapacity junk hg₁
  · exact (h.ensureCapacity junk hg₁).enterVertex id.toNat a₁

theorem HasPtrs.run (h : HasPtrs g) {c : Call} {a a' : Allocator}
    (hg' : c.run junk g a = some (g', a')) : HasPtrs g' := by
  cases c with
  | addVertex v => exact h.addVertex junk hg'
  | addEdge u v w =>
    rcases GraphImpl.addEdge_cases junk hg' with ⟨rfl, -⟩ |
      ⟨g₁, a₁, g₂, a₂, -, -, hg₁, hg₂, hrest⟩
    · exact h
    · have htwo := (h.addVertex junk hg₁).addVertex junk hg₂
      rcases hrest with rfl | ⟨-, -, ⟨-, rfl⟩ | ⟨-, rfl⟩⟩
      · exact htwo
      · exact (sameVertices_of_edgesOnly
          (GraphImpl.edgesOnly_adjListAddEdge _ _ _ _ _)).hasPtrs htwo
      · exact (sameVertices_of_edgesOnly (GraphImpl.edgesOnly_setCells _ _ _ _)).hasPtrs htwo
  | removeEdge u v =>
    obtain ⟨rfl, -⟩ := Prod.mk.inj (Option.some.inj hg')
    exact (sameVertices_of_edgesOnly (GraphImpl.edgesOnly_removeEdge g u v)).hasPtrs h

theorem create_hasPtrs {type : GraphType} {rep : GraphRepresentation} {ts : TraversalStrategy}
    {ms : MinPathStrategy} {a : Allocator}
    (h : (GraphImpl.create junk type rep ts ms a).1 = some g) : HasPtrs g := by
  obtain rfl := create_eq_some junk h
  intro v hv
  exact absurd (GraphImpl.mem_vertices.mp hv).2 (by simp)

/-- The pointers of every graph are set. -/
theorem Built.hasPtrs (h : Built g) : HasPtrs g := by
  obtain ⟨junk, type, rep, ts, ms, a, a', calls, hbuild⟩ := h
  exact build_induction junk (fun g a => create_hasPtrs junk)
    (fun g a c g' a' hg hrun => hg.run junk hrun) hbuild

end WellFormed

/-! ## The loop over the edges

This is the one place where the two representations of a graph matter to the algorithms. From here
on a loop over edges is a loop over `outEdges`. -/

/-- The loop over the edges out of a vertex comes to the edges that a caller sees. -/
theorem mem_outEdges {g : GraphImpl} (h : WellFormed g) {u v : ℕ} (hu : u ∈ g.vertices) (c : ℚ) :
    (v, (c : WithTop ℚ)) ∈ g.outEdges u ↔ g.weights u v = c := by
  by_cases hv : v ∈ g.vertices
  · rw [GraphImpl.weights_eq hu hv]
    rw [GraphImpl.outEdges]
    cases hrep : g.rep with
    | adjacencyList =>
      show _ ↔ g.adjListGetEdgeWeight u v = c
      rw [GraphImpl.adjListGetEdgeWeight]
      cases hadj : g.adjLists u with
      | none => simp
      | some adj =>
        obtain ⟨M, hedges⟩ := h.edges u adj hadj
        dsimp only
        rw [GraphImpl.edgeWeight_eq hedges, Option.getD_eq_iff]
        simp only [List.mem_map, List.mem_filter, Prod.mk.injEq, hedges.eq_some_iff]
        constructor
        · rintro ⟨e, ⟨he, -⟩, rfl, hw⟩
          exact Or.inl ⟨e, he, rfl, hw⟩
        · rintro (⟨e, he, rfl, hw⟩ | ⟨-, htop⟩)
          · exact ⟨e, ⟨he, GraphImpl.isValidVertex_cast.mpr hv⟩, rfl, hw⟩
          · exact absurd htop WithTop.top_ne_coe
    | adjacencyMatrix =>
      show _ ↔ g.adjMatrixGetEdgeWeight u v = c
      rw [GraphImpl.adjMatrixGetEdgeWeight]
      simp only [List.mem_map, List.mem_filter, List.mem_range, Prod.mk.injEq, decide_eq_true_eq]
      constructor
      · rintro ⟨⟨v', -, rfl, hw⟩, -⟩
        exact hw
      · intro hw
        exact ⟨⟨v, ⟨(GraphImpl.mem_vertices.mp hv).1, GraphImpl.isValidVertex_cast.mpr hv⟩, rfl,
          hw⟩, WithTop.coe_ne_top⟩
  · have htop : g.weights u v = ⊤ := by
      by_contra hne
      exact hv (GraphImpl.mem_of_weights_ne_top hne).2
    rw [htop]
    refine ⟨fun hmem => absurd ?_ hv, fun heq => absurd heq WithTop.top_ne_coe⟩
    rw [GraphImpl.outEdges] at hmem
    cases hrep : g.rep with
    | adjacencyList =>
      rw [hrep] at hmem
      cases hadj : g.adjLists u with
      | none => simp [hadj] at hmem
      | some adj =>
        simp only [hadj, List.mem_map, List.mem_filter, Prod.mk.injEq] at hmem
        obtain ⟨e, ⟨-, hvalid⟩, rfl, -⟩ := hmem
        exact GraphImpl.isValidVertex_cast.mp hvalid
    | adjacencyMatrix =>
      rw [hrep] at hmem
      simp only [List.mem_map, List.mem_filter, List.mem_range, Prod.mk.injEq] at hmem
      obtain ⟨⟨v', ⟨-, hvalid⟩, rfl, -⟩, -⟩ := hmem
      exact GraphImpl.isValidVertex_cast.mp hvalid

theorem hasEdge_cast {g : GraphImpl} {u v : ℕ} : g.hasEdge u v = true ↔
    u ∈ g.vertices ∧ v ∈ g.vertices ∧ (match g.rep with
      | .adjacencyList => g.adjListHasEdge u v
      | .adjacencyMatrix => g.adjMatrixHasEdge u v) = true := by
  rw [GraphImpl.mem_vertices, GraphImpl.mem_vertices, ← GraphImpl.hasVertex_cast,
    ← GraphImpl.hasVertex_cast]
  rw [GraphImpl.hasEdge]
  rw [Int.toNat_natCast, Int.toNat_natCast]
  cases g.hasVertex u with
  | false => exact iff_of_false (by simp) fun h => Bool.false_ne_true h.1
  | true =>
    cases g.hasVertex v with
    | false => exact iff_of_false (by simp) fun h => Bool.false_ne_true h.2.1
    | true => exact ⟨fun h => ⟨rfl, rfl, h⟩, fun h => h.2.2⟩

/-- The loop over the edges out of a vertex comes to the vertices it has an edge to. -/
theorem mem_outEdges_fst {g : GraphImpl} (h : WellFormed g) {u v : ℕ} (hu : u ∈ g.vertices) :
    v ∈ (g.outEdges u).map Prod.fst ↔ g.hasEdge u v = true := by
  rw [hasEdge_cast]
  rw [GraphImpl.outEdges]
  cases hrep : g.rep with
  | adjacencyList =>
    dsimp only
    rw [GraphImpl.adjListHasEdge]
    cases hadj : g.adjLists u with
    | none => simp
    | some adj =>
      obtain ⟨M, hedges⟩ := h.edges u adj hadj
      dsimp only
      rw [GraphImpl.isSome_findEdge hedges, Option.isSome_iff_exists]
      simp only [List.map_map, List.mem_map, List.mem_filter, Function.comp_apply,
        hedges.eq_some_iff]
      constructor
      · rintro ⟨e, ⟨he, hvalid⟩, rfl⟩
        exact ⟨hu, GraphImpl.isValidVertex_cast.mp hvalid, _, e, he, rfl, rfl⟩
      · rintro ⟨-, hv, -, e, he, rfl, -⟩
        exact ⟨e, ⟨he, GraphImpl.isValidVertex_cast.mpr hv⟩, rfl⟩
  | adjacencyMatrix =>
    dsimp only
    rw [GraphImpl.adjMatrixHasEdge]
    simp only [List.mem_map, List.mem_filter, List.mem_range, decide_eq_true_eq]
    constructor
    · rintro ⟨e, ⟨⟨v', ⟨-, hvalid⟩, rfl⟩, hne⟩, rfl⟩
      exact ⟨hu, GraphImpl.isValidVertex_cast.mp hvalid, hne⟩
    · rintro ⟨-, hv, hne⟩
      exact ⟨_, ⟨⟨v, ⟨(GraphImpl.mem_vertices.mp hv).1, GraphImpl.isValidVertex_cast.mpr hv⟩, rfl⟩,
        hne⟩, rfl⟩

/-! ## Graphs from their weights

Witnesses need graphs with given weights. Adding the edges one by one in any order makes one, and
every weight function on finitely many ids is the weight function of a built graph. -/

/-- The weights that a caller sees are those of the abstract graph. -/
theorem Represents.weights_eq {g : GraphImpl} {A : AbstractGraph} (h : Represents g A) (u v : ℕ) :
    g.weights u v = A.weight (u, v) := by
  rw [GraphImpl.weights]
  rw [h.getEdgeWeight_eq, if_pos ⟨Int.natCast_nonneg u, Int.natCast_nonneg v⟩]
  rfl

/-- The loop over the edges out of a vertex takes at most as many turns as there are edges. -/
theorem Represents.length_outEdges_le {g : GraphImpl} {A : AbstractGraph} (h : Represents g A)
    (hrep : g.rep = .adjacencyList) (u : ℕ) :
    (g.outEdges u).length ≤ (support (row A.weight u)).ncard := by
  have hstored := (stored_iff_lists hrep).mp h.stored
  rw [GraphImpl.outEdges]
  rw [hrep]
  cases hadj : g.adjLists u with
  | none => exact Nat.zero_le _
  | some adj =>
    obtain ⟨-, hedges⟩ := hstored.edges u adj hadj
    rw [hedges.ncard_support, List.length_map]
    exact List.length_filter_le _ _

/-- What edges that are added to a directed graph do to its weights. -/
theorem AbstractGraph.weight_foldl_addEdge (w : ℕ → ℕ → WithTop ℚ) (ps : List (ℕ × ℕ))
    {A : AbstractGraph} (htype : A.type = .directed) (p : ℕ × ℕ) :
    ((ps.map fun p => Call.addEdge p.1 p.2 (w p.1 p.2)).foldl AbstractGraph.apply A).weight p =
      if p ∈ ps then w p.1 p.2 else A.weight p := by
  induction ps generalizing A with
  | nil => rfl
  | cons q ps ih =>
    rw [List.map_cons, List.foldl_cons, ih ((A.apply_type _).trans htype)]
    have hset : (A.apply (.addEdge q.1 q.2 (w q.1 q.2))).weight p =
        if p = q then w q.1 q.2 else A.weight p := by
      rw [AbstractGraph.apply, AbstractGraph.setEdge, if_neg (fun hun => by
        rw [AbstractGraph.addVertex_type, AbstractGraph.addVertex_type, htype] at hun
        exact absurd hun.1 (by decide))]
      exact Function.update_apply _ _ _ _
    rw [hset]
    by_cases hps : p ∈ ps
    · rw [if_pos hps, if_pos (List.mem_cons_of_mem _ hps)]
    · by_cases hq : p = q
      · subst hq
        rw [if_neg hps, if_pos rfl, if_pos List.mem_cons_self]
      · rw [if_neg hps, if_neg hq, if_neg fun hmem => (List.mem_cons.mp hmem).elim hq hps]

/-- The ids of which `has_vertex` says yes are the vertices that the calls made. -/
theorem Represents.vertices_eq {g : GraphImpl} {A : AbstractGraph} (h : Represents g A) :
    g.vertices = A.vertices := by
  ext v
  rw [GraphImpl.mem_vertices, ← GraphImpl.hasVertex_cast, h.hasVertex_iff, Int.toNat_natCast]
  exact ⟨fun hmem => hmem.2, fun hmem => ⟨Int.natCast_nonneg v, hmem⟩⟩

/-- The calls that add the edges of given weights between the first `n` ids. Vertices without edges
are not added, as no algorithm below needs them. -/
def edgeCalls (w : ℕ → ℕ → WithTop ℚ) (n : ℕ) : List Call :=
  (((List.range n).product (List.range n)).filter fun p => w p.1 p.2 ≠ ⊤).map fun p =>
    .addEdge p.1 p.2 (w p.1 p.2)

/-- **Every weighted digraph on fewer than `2 ^ 30` ids** is built by calls. -/
theorem exists_built_of_weights (junk : ℤ → WithTop ℚ) (ms : MinPathStrategy)
    {w : ℕ → ℕ → WithTop ℚ} {n : ℕ} (hn : n ≤ 2 ^ 30)
    (hw : ∀ u v, w u v ≠ ⊤ → u < n ∧ v < n) :
    ∃ g, build junk .directed .adjacencyList .bfs ms Allocator.always (edgeCalls w n) =
        some (g, Allocator.always) ∧ (∀ u v, g.weights u v = w u v) ∧
      ∀ u, (g.outEdges u).length ≤ {v | w u v ≠ ⊤}.ncard := by
  have hbelow : ∀ c ∈ edgeCalls w n, c.Below (2 ^ GraphRepresentation.adjacencyList.maxLog) := by
    intro c hc
    obtain ⟨⟨u, v⟩, hp, rfl⟩ := List.mem_map.mp hc
    obtain ⟨hp, hne⟩ := List.mem_filter.mp hp
    obtain ⟨hu, hv⟩ := hw u v (of_decide_eq_true hne)
    have hbound : ((n : ℕ) : ℤ) ≤ 2 ^ 30 := by exact_mod_cast hn
    exact ⟨⟨Int.natCast_nonneg u, by show (u : ℤ) < 2 ^ 30; omega⟩,
      ⟨Int.natCast_nonneg v, by show (v : ℤ) < 2 ^ 30; omega⟩, of_decide_eq_true hne⟩
  obtain ⟨g, hg, hrepr, hrep⟩ :=
    build_represents_below junk .directed .adjacencyList .bfs ms hbelow
  have hweight : ∀ u v,
      (AbstractGraph.ofCalls .directed (edgeCalls w n)).weight (u, v) = w u v := by
    intro u v
    rw [AbstractGraph.ofCalls, edgeCalls, AbstractGraph.weight_foldl_addEdge w _ rfl]
    split
    · rfl
    · next hnot =>
      by_contra hne
      have hfinite : w u v ≠ ⊤ := Ne.symm hne
      obtain ⟨hu, hv⟩ := hw u v hfinite
      exact hnot (List.mem_filter.mpr ⟨List.pair_mem_product.mpr
        ⟨List.mem_range.mpr hu, List.mem_range.mpr hv⟩, decide_eq_true hfinite⟩)
  refine ⟨g, hg, fun u v => (hrepr.weights_eq u v).trans (hweight u v), fun u => ?_⟩
  refine (hrepr.length_outEdges_le hrep u).trans_eq (congrArg Set.ncard ?_)
  ext v
  exact (isSome_row _ u v).trans (by rw [hweight]; rfl)

/-- The directed graph that one edge makes. -/
theorem exists_singleEdge (junk : ℤ → WithTop ℚ) (ms : MinPathStrategy) {x y : ℕ} (hx : x < 32768)
    (hy : y < 32768) (w : ℚ) :
    ∃ g, build junk .directed .adjacencyList .bfs ms Allocator.always [.addEdge x y w] =
        some (g, Allocator.always) ∧ g.hasVertex x = true ∧
      (∀ u v, g.weights u v = if u = x ∧ v = y then (w : WithTop ℚ) else ⊤) ∧
      ∀ u, (g.outEdges u).length ≤ 1 := by
  have hscope : ∀ c ∈ [Call.addEdge x y w], c.InScope := by
    intro c hc
    obtain rfl := List.mem_singleton.mp hc
    exact ⟨⟨by omega, by omega⟩, ⟨by omega, by omega⟩, WithTop.coe_ne_top⟩
  obtain ⟨g, hg, hrepr, hrep⟩ := build_represents junk .directed .adjacencyList .bfs ms hscope
  have hweight : ∀ u v, (AbstractGraph.ofCalls .directed [.addEdge x y w]).weight (u, v) =
      if u = x ∧ v = y then (w : WithTop ℚ) else ⊤ := by
    intro u v
    show Function.update (fun _ => (⊤ : WithTop ℚ)) (x, y) (w : WithTop ℚ) (u, v) = _
    rw [Function.update_apply]
    simp only [Prod.mk.injEq]
  refine ⟨g, hg, ?_, fun u v => (hrepr.weights_eq u v).trans (hweight u v), fun u => ?_⟩
  · rw [hrepr.hasVertex_iff]
    refine ⟨Int.natCast_nonneg x, ?_⟩
    show x ∈ insert y (insert x ∅)
    exact Finset.mem_insert_of_mem (Finset.mem_insert_self _ _)
  · refine (hrepr.length_outEdges_le hrep u).trans ?_
    have hsub :
        support (row (AbstractGraph.ofCalls .directed [.addEdge x y w]).weight u) ⊆ {y} := by
      intro v hv
      have hne := (isSome_row _ u v).mp hv
      rw [hweight] at hne
      by_contra hvy
      exact hne (if_neg fun h => hvy h.2)
    exact (Set.ncard_le_ncard hsub).trans_eq (Set.ncard_singleton y)

end Graph

end OvaLib
