import OvaLib.Graph.BellmanFord
import OvaLib.Graph.FullQueue
import OvaLib.Graph.GraphRefinement

/-!
# The strategy of `min_path`

The strategy is chosen at construction and only `graph_min_path_method` looks at it, so the same
calls build the same graph up to that field. A caller of `min_path` is told neither the strategy
nor anything about weights: the header says that the call returns 1 on success and 0 on failure.
So the two strategies should not be told apart by what the call does.

They are, for two reasons. `graph_bellman_ford_impl` has a pass that looks for an edge which still
improves a label, and answers 0 when there is one; `graph_dijkstra_impl` has no such test and
relaxes round a negative cycle for ever. When it does come back its status is 1, so with a negative
cycle in reach the answers are never the same, whatever the queue does. The other reason is the
queue itself, which drops nodes once it holds `INT_MAX` of them (`dijkstra_fullQueue`); the
Bellman–Ford algorithm has no queue. Apart from these two the strategies agree.

## Main results

* `build_withStrategy` — the strategy does not influence the construction
* `minPath_differs` — with a negative cycle in reach the answers are not the same
* `minPath_same`, `minPath_agrees_when` — without one they are, as long as no put finds the queue
  full
-/

namespace OvaLib

namespace Graph

open Foundation

namespace GraphImpl

/-! ## The strategy during the construction -/

/-- The same graph with a shortest-path strategy of its own. -/
def withStrategy (m : MinPathStrategy) (g : GraphImpl) : GraphImpl :=
  { g with minPathStrategy := m }

variable (junk : ℤ → WithTop ℚ) (m : MinPathStrategy) (g : GraphImpl)

@[simp] theorem withStrategy_type : (g.withStrategy m).type = g.type := rfl

@[simp] theorem withStrategy_rep : (g.withStrategy m).rep = g.rep := rfl

@[simp] theorem withStrategy_vertexCapacity :
    (g.withStrategy m).vertexCapacity = g.vertexCapacity := rfl

@[simp] theorem withStrategy_present : (g.withStrategy m).present = g.present := rfl

@[simp] theorem withStrategy_adjLists : (g.withStrategy m).adjLists = g.adjLists := rfl

@[simp] theorem withStrategy_hasVertex (x : ℤ) : (g.withStrategy m).hasVertex x = g.hasVertex x :=
  rfl

theorem withStrategy_cell (u v : ℕ) : (g.withStrategy m).cell u v = g.cell u v := by
  simp only [cell]
  rw [withStrategy_vertexCapacity]

/-- The strategy set in the graph that a call returns. -/
abbrev setStrategy (r : GraphImpl × Allocator) : GraphImpl × Allocator := (r.1.withStrategy m, r.2)

theorem reallocate_withStrategy (n : ℕ) (a : Allocator) :
    (g.withStrategy m).reallocate junk n a = setStrategy m (g.reallocate junk n a) := by
  simp only [reallocate]
  simp only [withStrategy]
  split_ifs
  · rfl
  · rfl
  · cases g.rep <;> rfl

theorem ensureCapacity_withStrategy (id : ℤ) (a : Allocator) :
    (g.withStrategy m).ensureCapacity junk id a =
      (g.ensureCapacity junk id a).map (setStrategy m) := by
  unfold ensureCapacity
  rw [withStrategy_vertexCapacity]
  dsimp only
  split
  · rfl
  · split
    · rfl
    · cases doubleUntil 64 (if g.vertexCapacity > 0 then g.vertexCapacity else 8)
        (int32 (id + 1)) with
      | none => rfl
      | some newCap => exact congrArg some (reallocate_withStrategy junk m g _ a)

theorem enterVertex_withStrategy (v : ℕ) (a : Allocator) :
    (g.withStrategy m).enterVertex v a = setStrategy m (g.enterVertex v a) := by
  unfold enterVertex
  rw [withStrategy_rep, withStrategy_adjLists]
  dsimp only
  split_ifs <;> rfl

theorem addVertex_withStrategy (id : ℤ) (a : Allocator) :
    (g.withStrategy m).addVertex junk id a = (g.addVertex junk id a).map (setStrategy m) := by
  simp only [addVertex]
  rw [ensureCapacity_withStrategy]
  split_ifs
  · rfl
  · cases g.ensureCapacity junk id a with
    | none => rfl
    | some r =>
      dsimp only [Option.map_some, setStrategy]
      rw [withStrategy_vertexCapacity, withStrategy_present, enterVertex_withStrategy]
      split_ifs <;> rfl

theorem addOneEdge_withStrategy (u v : ℕ) (w : WithTop ℚ) (a : Allocator) :
    (g.withStrategy m).addOneEdge u v w a = setStrategy m (g.addOneEdge u v w a) := by
  simp only [addOneEdge, ensureAdjList]
  simp only [withStrategy_adjLists]
  cases g.adjLists u with
  | some adj => rfl
  | none =>
    dsimp only
    cases ArrayList.create 4 a with
    | mk adj a' => cases adj <;> rfl

theorem adjListAddEdge_withStrategy (u v : ℕ) (w : WithTop ℚ) (a : Allocator) :
    (g.withStrategy m).adjListAddEdge u v w a = setStrategy m (g.adjListAddEdge u v w a) := by
  simp only [adjListAddEdge]
  simp only [addOneEdge_withStrategy]
  rw [withStrategy_type]
  split_ifs <;> rfl

theorem removeOneEdge_withStrategy (u v : ℕ) :
    (g.withStrategy m).removeOneEdge u v = (g.removeOneEdge u v).withStrategy m := by
  simp only [removeOneEdge]
  rw [withStrategy_adjLists]
  cases g.adjLists u <;> rfl

theorem adjListRemoveEdge_withStrategy (u v : ℕ) :
    (g.withStrategy m).adjListRemoveEdge u v = (g.adjListRemoveEdge u v).withStrategy m := by
  simp only [adjListRemoveEdge]
  simp only [removeOneEdge_withStrategy]
  rw [withStrategy_type]
  split_ifs <;> rfl

theorem setCells_withStrategy (u v : ℕ) (w : WithTop ℚ) :
    (g.withStrategy m).setCells u v w = (g.setCells u v w).withStrategy m := by
  have hset : ∀ (g : GraphImpl) u v,
      (g.withStrategy m).setCell u v w = (g.setCell u v w).withStrategy m := by
    intro g u v
    rw [setCell]
    rw [withStrategy_cell]
    rfl
  simp only [setCells]
  simp only [hset]
  rw [withStrategy_type]
  split_ifs <;> rfl

theorem addEdge_withStrategy (x y : ℤ) (w : WithTop ℚ) (a : Allocator) :
    (g.withStrategy m).addEdge junk x y w a =
      (g.addEdge junk x y w a).map (setStrategy m) := by
  simp only [addEdge]
  rw [addVertex_withStrategy]
  split_ifs
  · rfl
  · cases g.addVertex junk x a with
    | none => rfl
    | some r =>
      obtain ⟨g₁, a₁⟩ := r
      simp only [Option.map_some, addVertex_withStrategy]
      cases g₁.addVertex junk y a₁ with
      | none => rfl
      | some r =>
        obtain ⟨g₂, a₂⟩ := r
        simp only [Option.map_some, adjListAddEdge_withStrategy, adjMatrixAddEdge,
          setCells_withStrategy, withStrategy_hasVertex, withStrategy_rep]
        split_ifs
        · rfl
        · cases g₂.rep <;> rfl

theorem removeEdge_withStrategy (x y : ℤ) :
    (g.withStrategy m).removeEdge x y = (g.removeEdge x y).withStrategy m := by
  simp only [removeEdge]
  simp only [withStrategy_hasVertex, withStrategy_rep, adjListRemoveEdge_withStrategy,
    adjMatrixRemoveEdge, setCells_withStrategy]
  split_ifs
  · rfl
  · cases g.rep <;> rfl

end GraphImpl

open GraphImpl

variable (junk : ℤ → WithTop ℚ) (m : MinPathStrategy)

theorem Call.run_withStrategy (c : Call) (g : GraphImpl) (a : Allocator) :
    c.run junk (g.withStrategy m) a = (c.run junk g a).map (setStrategy m) := by
  cases c with
  | addVertex v => exact addVertex_withStrategy junk m g v a
  | addEdge u v w => exact addEdge_withStrategy junk m g u v w a
  | removeEdge u v => exact congrArg (fun g => some (g, a)) (removeEdge_withStrategy m g u v)

theorem runCalls_withStrategy (calls : List Call) : ∀ (g : GraphImpl) (a : Allocator),
    runCalls junk (g.withStrategy m) a calls =
      (runCalls junk g a calls).map (setStrategy m) := by
  induction calls with
  | nil => exact fun g a => rfl
  | cons c calls ih =>
    intro g a
    rw [runCalls, runCalls, Call.run_withStrategy]
    cases c.run junk g a with
    | none => rfl
    | some r => exact ih r.1 r.2

/-- The strategy does not influence the construction. -/
theorem build_withStrategy (type : GraphType) (rep : GraphRepresentation) (ts : TraversalStrategy)
    (m' : MinPathStrategy) (a : Allocator) (calls : List Call) :
    build junk type rep ts m a calls =
      (build junk type rep ts m' a calls).map (setStrategy m) := by
  have hcreate : GraphImpl.create junk type rep ts m a =
      (GraphImpl.create junk type rep ts m' a).map (Option.map (withStrategy m)) id := by
    unfold GraphImpl.create
    dsimp only
    split_ifs <;> rfl
  simp only [build]
  rw [hcreate]
  cases GraphImpl.create junk type rep ts m' a with
  | mk g a' =>
    cases g with
    | none => rfl
    | some g => exact runCalls_withStrategy junk m calls g a'

/-- A graph has the strategy it was constructed with. -/
theorem minPathStrategy_of_build {type : GraphType} {rep : GraphRepresentation}
    {ts : TraversalStrategy} {a a' : Allocator} {calls : List Call} {g : GraphImpl}
    (h : build junk type rep ts m a calls = some (g, a')) : g.minPathStrategy = m := by
  have hself := build_withStrategy junk m type rep ts m a calls
  rw [h] at hself
  have hg : g = g.withStrategy m := congrArg Prod.fst (Option.some.inj hself)
  rw [hg]
  rfl

/-! ## Negative cycles -/

/-- With a negative cycle in reach Dijkstra's algorithm does not end. -/
theorem dijkstra_diverges {g : GraphImpl} (hg : Built g) {start : ℤ}
    (hstart : g.hasVertex start = true) (hcycle : NegativeCycle g.weights start.toNat)
    (hroom : QueueHasRoom g start) (fuel : ℕ) : g.dijkstra fuel start Allocator.always = none := by
  have hwf := hg.wellFormed
  obtain ⟨st, hinit, hinv, -, -⟩ :=
    DijkstraState.init_always hwf (GraphImpl.mem_vertices_of_hasVertex hstart)
  rw [dijkstra_eq hstart hinit, Option.map_eq_none_iff]
  by_contra hne
  obtain ⟨fin, hfin⟩ := Option.ne_none_iff_exists'.mp hne
  obtain ⟨hlabels, hrelaxed⟩ := DijkstraState.loop_relaxed hwf hinv (hroom st hinit) hfin
  exact hlabels.not_negativeCycle hrelaxed hcycle

/-- A call that returns, returns 1. -/
theorem dijkstra_status {g : GraphImpl} (hg : Built g) {start : ℤ}
    (hstart : g.hasVertex start = true) {fuel : ℕ} {r : PathResult}
    (hr : g.dijkstra fuel start Allocator.always = some r) : r.status = 1 := by
  obtain ⟨st, hinit, -, -, -⟩ :=
    DijkstraState.init_always hg.wellFormed (GraphImpl.mem_vertices_of_hasVertex hstart)
  rw [dijkstra_eq hstart hinit] at hr
  obtain ⟨fin, -, rfl⟩ := Option.map_eq_some_iff.mp hr
  rfl

/-! ## The same graph with either strategy -/

section Same

variable {g : GraphImpl}

theorem weights_withStrategy : (g.withStrategy m).weights = g.weights := by
  have hlist : ∀ u v, (g.withStrategy m).adjListGetEdgeWeight u v = g.adjListGetEdgeWeight u v :=
    fun _ _ => rfl
  have hmatrix : ∀ u v,
      (g.withStrategy m).adjMatrixGetEdgeWeight u v = g.adjMatrixGetEdgeWeight u v := by
    intro u v
    rw [adjMatrixGetEdgeWeight]
    rw [withStrategy_cell]
    rfl
  funext u v
  simp only [weights, getEdgeWeight]
  simp only [withStrategy_hasVertex, withStrategy_rep, hlist, hmatrix]

variable {gD gB : GraphImpl} {start : ℤ}

/-- What `min_path` calls for each strategy. -/
theorem minPath_eq (hstrategy : gD.minPathStrategy = .dijkstra)
    (hsame : gB = gD.withStrategy .bellmanFord) (start : ℤ) (fuel : ℕ) :
    gD.minPath fuel start Allocator.always = gD.dijkstra fuel start Allocator.always ∧
      gB.minPath fuel start Allocator.always = some (gB.bellmanFord start Allocator.always) := by
  refine ⟨?_, ?_⟩
  · rw [minPath, hstrategy]
  · rw [minPath, hsame]
    rfl

/-- With a negative cycle in reach the answers are not the same: one call returns 1 or not at all,
the other 0. -/
theorem minPath_differs (hD : Built gD) (hB : Built gB) (hstrategy : gD.minPathStrategy = .dijkstra)
    (hsame : gB = gD.withStrategy .bellmanFord) (hstart : gD.hasVertex start = true)
    (hcycle : NegativeCycle gD.weights start.toNat) (fuel : ℕ) (r : PathResult) :
    ¬ (gD.minPath fuel start Allocator.always = some r ∧
      gB.minPath fuel start Allocator.always = some r) := by
  rintro ⟨hdijkstra, hbellmanFord⟩
  obtain ⟨hminD, hminB⟩ := minPath_eq hstrategy hsame start fuel
  have hstatus := dijkstra_status hD hstart (hminD ▸ hdijkstra)
  have hstartB : gB.hasVertex start = true := by
    rw [hsame, withStrategy_hasVertex]
    exact hstart
  rcases bellmanFord_cases hB hstartB with ⟨-, hresult⟩ | ⟨hnot, -⟩
  · obtain rfl := Option.some.inj (hminB.symm.trans hbellmanFord)
    rw [hresult] at hstatus
    exact absurd hstatus (by decide)
  · rw [hsame, weights_withStrategy] at hnot
    exact hnot hcycle

/-- Without one both return the distances, as long as no put finds the queue full. -/
theorem minPath_same (hD : Built gD) (hB : Built gB) (hstrategy : gD.minPathStrategy = .dijkstra)
    (hsame : gB = gD.withStrategy .bellmanFord) (hstart : gD.hasVertex start = true)
    (hcycle : ¬ NegativeCycle gD.weights start.toNat) (hroom : QueueHasRoom gD start) :
    ∃ r bound, ∀ fuel ≥ bound, gD.minPath fuel start Allocator.always = some r ∧
      gB.minPath fuel start Allocator.always = some r := by
  have hstartB : gB.hasVertex start = true := by
    rw [hsame, withStrategy_hasVertex]
    exact hstart
  have hweights : gB.weights = gD.weights := by rw [hsame, weights_withStrategy]
  have hcap : gB.vertexCapacity = gD.vertexCapacity := by rw [hsame, withStrategy_vertexCapacity]
  obtain ⟨d, hd, bound, hbound⟩ := dijkstra_ends hD hstart hcycle hroom
  rcases bellmanFord_cases hB hstartB with ⟨hneg, -⟩ | ⟨-, d', hd', hresult⟩
  · exact absurd (hweights ▸ hneg) hcycle
  · rw [hweights] at hd'
    refine ⟨⟨1, some ⟨gD.vertexCapacity, d⟩⟩, bound, fun fuel hfuel => ?_⟩
    obtain ⟨hminD, hminB⟩ := minPath_eq hstrategy hsame start fuel
    refine ⟨hminD.trans (hbound fuel hfuel), ?_⟩
    rw [hminB, hresult, hcap, hd'.unique hd]

end Same

/-- **The strategy is unobservable where no negative cycle is in reach and the queue has room.** Of
two graphs that the same calls build with the two strategies, `min_path` then returns the same
status and the same distances. With a negative cycle in reach it never does, whether or not the
queue has room. -/
theorem minPath_agrees_when (type : GraphType) (rep : GraphRepresentation) (ts : TraversalStrategy)
    (a a' a'' : Allocator) (calls : List Call) (gD gB : GraphImpl)
    (hD : build junk type rep ts .dijkstra a calls = some (gD, a'))
    (hB : build junk type rep ts .bellmanFord a calls = some (gB, a'')) (start : ℤ)
    (hstart : gD.hasVertex start = true) :
    (¬ NegativeCycle gD.weights start.toNat ∧ QueueHasRoom gD start →
      ∃ r bound, ∀ fuel ≥ bound, gD.minPath fuel start Allocator.always = some r ∧
        gB.minPath fuel start Allocator.always = some r) ∧
    (NegativeCycle gD.weights start.toNat → ∀ fuel r,
      ¬ (gD.minPath fuel start Allocator.always = some r ∧
        gB.minPath fuel start Allocator.always = some r)) := by
  have hother := build_withStrategy junk .bellmanFord type rep ts .dijkstra a calls
  rw [hD, hB] at hother
  have hsame : gB = gD.withStrategy .bellmanFord := congrArg Prod.fst (Option.some.inj hother)
  have hbuiltD : Built gD := ⟨junk, type, rep, ts, .dijkstra, a, a', calls, hD⟩
  have hbuiltB : Built gB := ⟨junk, type, rep, ts, .bellmanFord, a, a'', calls, hB⟩
  have hstrategy := minPathStrategy_of_build junk .dijkstra hD
  exact ⟨fun hfits => minPath_same hbuiltD hbuiltB hstrategy hsame hstart hfits.1 hfits.2,
    minPath_differs hbuiltD hbuiltB hstrategy hsame hstart⟩

/-- A loop of negative weight: the call does not return with one strategy, and returns 0 with the
other. -/
theorem minPath_disagrees_loop :
    ∃ gD gB,
      build (fun _ => 0) .directed .adjacencyList .bfs .dijkstra Allocator.always
        [.addEdge 0 0 ((-1 : ℚ) : WithTop ℚ)] = some (gD, Allocator.always) ∧
      build (fun _ => 0) .directed .adjacencyList .bfs .bellmanFord Allocator.always
        [.addEdge 0 0 ((-1 : ℚ) : WithTop ℚ)] = some (gB, Allocator.always) ∧
      gD.hasVertex 0 = true ∧ gB.hasVertex 0 = true ∧
      (∀ fuel, gD.minPath fuel 0 Allocator.always = none) ∧
      ∀ fuel, gB.minPath fuel 0 Allocator.always = some ⟨0, none⟩ := by
  obtain ⟨gD, hD, hstartD, hweightsD, hdegree⟩ :=
    exists_singleEdge (fun _ => 0) .dijkstra (x := 0) (y := 0) (by norm_num) (by norm_num) (-1)
  obtain ⟨gB, hB, hstartB, hweightsB, -⟩ :=
    exists_singleEdge (fun _ => 0) .bellmanFord (x := 0) (y := 0) (by norm_num) (by norm_num) (-1)
  have hcycle : ∀ g : GraphImpl,
      (∀ u v, g.weights u v = if u = 0 ∧ v = 0 then ((-1 : ℚ) : WithTop ℚ) else ⊤) →
      NegativeCycle g.weights 0 := by
    intro g hweights
    refine ⟨0, Reaches.refl _ _, 1, 0 + -1, Walk.nil.snoc ?_, by norm_num⟩
    rw [hweights, if_pos ⟨rfl, rfl⟩]
  have hbuiltD : Built gD := ⟨_, _, _, _, _, _, _, _, hD⟩
  have hbuiltB : Built gB := ⟨_, _, _, _, _, _, _, _, hB⟩
  refine ⟨gD, gB, hD, hB, hstartD, hstartB, fun fuel => ?_, fun fuel => ?_⟩
  · rw [minPath, minPathStrategy_of_build _ _ hD]
    exact dijkstra_diverges hbuiltD hstartD (hcycle gD hweightsD)
      (queueHasRoom_of_length_le_one hbuiltD hstartD hdegree) fuel
  · rw [minPath, minPathStrategy_of_build _ _ hB]
    rcases bellmanFord_cases hbuiltB hstartB with ⟨-, hresult⟩ | ⟨hnot, -⟩
    · exact congrArg some hresult
    · exact absurd (hcycle gB hweightsB) hnot

/-- A negative edge, a vertex whose label improves twice, and no cycle: the strategies agree. -/
theorem minPath_agrees_detour :
    ∃ gD gB,
      build (fun _ => 0) .directed .adjacencyList .bfs .dijkstra Allocator.always detour =
        some (gD, Allocator.always) ∧
      build (fun _ => 0) .directed .adjacencyList .bfs .bellmanFord Allocator.always detour =
        some (gB, Allocator.always) ∧
      ∃ r bound, ∀ fuel ≥ bound, gD.minPath fuel 0 Allocator.always = some r ∧
        gB.minPath fuel 0 Allocator.always = some r := by
  obtain ⟨gD, hD, hstart, hweights, hcard⟩ := exists_detour .dijkstra
  obtain ⟨gB, hB, -⟩ := exists_detour .bellmanFord
  have hbuilt : Built gD := ⟨_, _, _, _, _, _, _, _, hD⟩
  exact ⟨gD, gB, hD, hB,
    (minPath_agrees_when _ .directed .adjacencyList .bfs _ _ _ _ gD gB hD hB 0 hstart).1
      (detour_roomy hbuilt hstart hweights hcard)⟩

end Graph

end OvaLib
