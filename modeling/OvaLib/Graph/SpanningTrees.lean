import Mathlib.Algebra.BigOperators.Group.List.Basic
import Mathlib.Algebra.Order.Ring.Rat
import Mathlib.Data.Finset.Dedup
import OvaLib.Foundation.SpanningForest
import OvaLib.Graph.ShortestPaths
import OvaLib.Graph.UnionFind

/-!
# Spanning trees

`graph_mst_prim_impl` and `graph_mst_kruskal_impl`, with the edges they return and the array that
the edges are sorted in, and what it means that a list of edges is a minimum spanning forest of a
graph. Arithmetic is exact; an edge is the ordered pair of its ends.

* `qsort` is a parameter: the standard promises a permutation in the order of the comparator, and
  leaves open in which order it puts equal edges.
* The loops of Prim's algorithm and the recursion of `uf_find` take fuel, and `none` is a call that
  has not returned.

## The statement that both algorithms meet

`IsMinForest g E items` says that the list, read as a set of edges, is a forest which joins the same
vertices as `E` does, that no such forest weighs less, and that each edge is on the list once and
with the weight it has in the graph. For Kruskal's algorithm `E` is the set of all edges, for Prim's
the edges of one component. The sum of the weights on a list is then the same for both, where both
are about the same edges, although the lists may differ.

An undirected graph has each edge in both directions, and `edgeSet` has both. A forest takes one of
them; which one does not matter for what it joins, and the weights are the same.

## Failures

An edge record, a candidate or a growth of the array that cannot be had is passed over by the loops
in different ways: Prim's main loop stops at an edge record that it cannot make, while a candidate
or an entry of the array is lost in silence. The model follows each of them.

## Main results

* `Represents.undirected` — what calls build on an undirected graph is one
* `IsMinForest.sum_eq` — two minimum spanning forests weigh the same
-/

namespace OvaLib

namespace Graph

open Foundation

/-- `graph_weighted_edge`. -/
structure WeightedEdge where
  fromVertex : ℕ
  toVertex : ℕ
  weight : WithTop ℚ

/-- `graph_create_weighted_edge`. -/
def createWeightedEdge (fromVertex toVertex : ℕ) (weight : WithTop ℚ) (a : Allocator) :
    Option WeightedEdge × Allocator :=
  let (out, a) := a.alloc
  if !out then (none, a)
  else
    let (impl, a) := a.alloc
    if !impl then (none, a) else (some ⟨fromVertex, toVertex, weight⟩, a)

/-! ## Prim's algorithm -/

/-- `prim_cand`. -/
structure PrimCand where
  fromVertex : ℕ
  toVertex : ℕ
  weight : WithTop ℚ

/-- `prim_cand_cmp`: the smaller weight is the greater candidate. -/
def primCandCmp (a b : PrimCand) : ℤ :=
  if a.weight < b.weight then 1 else if a.weight > b.weight then -1 else 0

/-- `prim_arena`, line by line a `pq_arena` of candidates. -/
abbrev PrimArena := PqArena

/-- `prim_arena_init`. -/
def primArenaInit (initialCapacity : ℕ) : PrimArena := PqArena.init initialCapacity

/-- `prim_arena_alloc`. -/
def primArenaAlloc (arena : PrimArena) (a : Allocator) : Option PrimArena × Allocator :=
  PqArena.alloc arena a

/-- The variables of `graph_mst_prim_impl` that the main loop changes. -/
structure PrimState where
  /-- Which vertices have joined the tree. -/
  inMst : ℕ → Bool
  pq : BinaryHeap PrimCand
  arena : PrimArena
  /-- The edges taken so far, in order. -/
  mst : ArrayList WeightedEdge
  allocator : Allocator

namespace PrimState

/-- One edge of `prim_push_edges`. -/
def pushEdge (fromVertex : ℕ) (st : PrimState) (e : ℕ × WithTop ℚ) : PrimState :=
  if st.inMst e.1 then st
  else
    match primArenaAlloc st.arena st.allocator with
    | (none, a) => { st with allocator := a }
    | (some arena, a) =>
      let (_, pq, a) := st.pq.put primCandCmp ⟨fromVertex, e.1, e.2⟩ a
      { st with pq := pq, arena := arena, allocator := a }

/-- `prim_push_edges`. -/
def pushEdges (g : GraphImpl) (st : PrimState) (fromVertex : ℕ) : PrimState :=
  (g.outEdges fromVertex).foldl (pushEdge fromVertex) st

/-- One turn of the main loop, or `none` when it ends. -/
def step (g : GraphImpl) (st : PrimState) : Option PrimState :=
  if 0 < st.pq.size ∧ (st.mst.size : ℤ) < g.vertexCount - 1 then
    match st.pq.pop primCandCmp with
    | (none, _) => none
    | (some c, pq) =>
      if st.inMst c.toVertex then some { st with pq := pq }
      else
        match createWeightedEdge c.fromVertex c.toVertex c.weight st.allocator with
        | (none, _) => none
        | (some we, a) =>
          let (_, mst, a) := st.mst.insert we st.mst.size a
          some (pushEdges g
            { st with
              inMst := Function.update st.inMst c.toVertex true
              pq := pq
              mst := mst
              allocator := a } c.toVertex)
  else none

/-- The main loop. -/
def loop (g : GraphImpl) : ℕ → PrimState → Option PrimState
  | 0, _ => none
  | fuel + 1, st =>
    match st.step g with
    | none => some st
    | some st => loop g fuel st

/-- The state in which the main loop is entered, or `none` when there is no memory. -/
def init (g : GraphImpl) (start : ℕ) (mst : ArrayList WeightedEdge) (a : Allocator) :
    Option PrimState :=
  let (inMst, a) := a.alloc
  match BinaryHeap.create (if g.vertexCount > 0 then g.vertexCount else 4) a with
  | (none, _) => none
  | (some pq, a) =>
    if !inMst then none
    else
      some (pushEdges g
        { inMst := Function.update (fun _ => false) start true
          pq := pq
          arena := primArenaInit (if g.vertexCount > 0 then g.vertexCount else 16)
          mst := mst
          allocator := a } start)

end PrimState

namespace GraphImpl

/-- `graph_first_vertex`. -/
def firstVertex (g : GraphImpl) : ℤ :=
  ((List.range g.vertexCapacity).find? fun v : ℕ => g.isValidVertex v).elim (-1) Int.ofNat

/-- `graph_mst_prim_impl`. -/
def mstPrim (fuel : ℕ) (g : GraphImpl) (startVertex : ℤ) (a : Allocator) :
    Option (Option (ArrayList WeightedEdge)) :=
  if g.type ≠ .undirected then some none
  else
    match ArrayList.create (if g.vertexCount > 0 then g.vertexCount else 4) a with
    | (none, _) => some none
    | (some mst, a) =>
      if g.vertexCount = 0 then some (some mst)
      else
        let start := if g.isValidVertex startVertex then startVertex else g.firstVertex
        if start < 0 then some (some mst)
        else
          match PrimState.init g start.toNat mst a with
          | none => some none
          | some st => (st.loop g fuel).map fun st => some st.mst

end GraphImpl

/-! ## Kruskal's algorithm -/

/-- `edge_vec`. -/
structure EdgeVec where
  items : List WeightedEdge
  cap : ℤ

/-- `edge_vec_push`, or `none` for 0. A negative capacity asks for more bytes than an object can
have. -/
def edgeVecPush (v : EdgeVec) (e : WeightedEdge) (a : Allocator) : Option EdgeVec × Allocator :=
  if v.items.length ≥ v.cap then
    let newCap := if v.cap > 0 then int32 (v.cap * 2) else 16
    let (n, a) := a.alloc
    if !n ∨ newCap < 0 then (none, a) else (some ⟨v.items ++ [e], newCap⟩, a)
  else (some ⟨v.items ++ [e], v.cap⟩, a)

/-- `edge_cmp_qsort`. -/
def edgeCmpQsort (a b : WeightedEdge) : ℤ :=
  if a.weight < b.weight then -1 else if a.weight > b.weight then 1 else 0

/-- What `qsort` promises for a comparator. -/
structure IsQsort {α : Type*} (cmp : α → α → ℤ) (qsort : List α → List α) : Prop where
  /-- Nothing is lost or made up. -/
  perm : ∀ l, (qsort l).Perm l
  /-- Nothing is said about equal elements. -/
  sorted : ∀ l, (qsort l).Pairwise fun x y => cmp x y ≤ 0

namespace GraphImpl

/-- One edge of the collection: it goes into the array unless it is a self loop or was met from
its other end. -/
def collectEdge (fromVertex : ℕ) (r : EdgeVec × Allocator) (e : ℕ × WithTop ℚ) :
    EdgeVec × Allocator :=
  if fromVertex ≥ e.1 then r
  else
    match createWeightedEdge fromVertex e.1 e.2 r.2 with
    | (none, a) => (r.1, a)
    | (some we, a) =>
      match edgeVecPush r.1 we a with
      | (none, a) => (r.1, a)
      | (some edges, a) => (edges, a)

/-- The edge collection of `graph_mst_kruskal_impl`. -/
def collectEdges (g : GraphImpl) (a : Allocator) : EdgeVec × Allocator :=
  (List.range g.vertexCapacity).foldl
    (fun r (fromVertex : ℕ) =>
      if !g.isValidVertex fromVertex then r
      else (g.outEdges fromVertex).foldl (collectEdge fromVertex) r)
    (⟨[], 0⟩, a)

end GraphImpl

/-- The variables of `graph_mst_kruskal_impl` that the main loop changes. -/
structure KruskalState where
  parent : ℕ → ℤ
  rank : ℕ → ℤ
  mst : ArrayList WeightedEdge
  allocator : Allocator

namespace KruskalState

/-- One turn of the main loop. -/
def take (fuel : ℕ) (st : KruskalState) (e : WeightedEdge) : Option KruskalState :=
  match ufFind fuel st.parent e.fromVertex with
  | none => none
  | some (ra, parent) =>
    match ufFind fuel parent e.toVertex with
    | none => none
    | some (rb, parent) =>
      if ra ≠ rb then
        match ufUnion fuel parent st.rank ra rb with
        | none => none
        | some (parent, rank) =>
          let (_, mst, a) := st.mst.insert e st.mst.size st.allocator
          some ⟨parent, rank, mst, a⟩
      else some { st with parent := parent }

/-- The main loop. -/
def loop (g : GraphImpl) (fuel : ℕ) : List WeightedEdge → KruskalState → Option KruskalState
  | [], st => some st
  | e :: es, st =>
    if (st.mst.size : ℤ) < g.vertexCount - 1 then
      match st.take fuel e with
      | none => none
      | some st => loop g fuel es st
    else some st

end KruskalState

/-- `graph_mst_kruskal_impl`. -/
def GraphImpl.mstKruskal (qsort : List WeightedEdge → List WeightedEdge) (fuel : ℕ) (g : GraphImpl)
    (a : Allocator) : Option (Option (ArrayList WeightedEdge)) :=
  if g.type ≠ .undirected then some none
  else
    match ArrayList.create (if g.vertexCount > 0 then g.vertexCount else 4) a with
    | (none, _) => some none
    | (some mst, a) =>
      let (edges, a) := g.collectEdges a
      let items := qsort edges.items
      let (parent, a) := a.alloc
      let (rank, a) := a.alloc
      if !parent || !rank then some none
      else
        (KruskalState.loop g fuel items
          { parent := fun v => if g.isValidVertex v then v else -1
            rank := fun _ => 0
            mst := mst
            allocator := a }).map fun st => some st.mst

/-! ## Undirected graphs

A graph that calls build on an undirected graph has symmetric weights as long as the ids are in
range, and the algorithms here assume it. -/

/-- An undirected graph with finite weights, as a caller sees it. -/
structure Undirected (g : GraphImpl) : Prop where
  type : g.type = .undirected
  symmetric : ∀ u v : ℕ, g.weights u v = g.weights v u
  finite : ∀ u v : ℕ, g.hasEdge u v = true → g.weights u v ≠ ⊤

/-- The edges of a graph, as a caller sees them. -/
def GraphImpl.edgeSet (g : GraphImpl) : Set (ℕ × ℕ) := {p | g.hasEdge p.1 p.2 = true}

/-- The weight of an edge. -/
def GraphImpl.weightOf (g : GraphImpl) (p : ℕ × ℕ) : ℚ := (g.weights p.1 p.2).untopD 0

variable {g : GraphImpl} {u v : ℕ}

/-- What calls build on an undirected graph is an undirected graph. -/
theorem Represents.undirected {A : AbstractGraph} (h : Represents g A)
    (htype : A.type = .undirected) (hsymm : A.Symmetric) : Undirected g where
  type := h.type_eq.trans htype
  symmetric u v := by
    rw [h.weights_eq, h.weights_eq]
    exact hsymm htype u v
  finite u v hedge := by
    rw [h.weights_eq]
    exact ((h.hasEdge_iff u v).mp hedge).2.2

/-- The loop over the edges out of a vertex reads the weights that a caller sees. -/
theorem weights_of_mem_outEdges (h : WellFormed g) (hu : u ∈ g.vertices) {w : WithTop ℚ}
    (he : (v, w) ∈ g.outEdges u) : g.weights u v = w := by
  have hv : v ∈ g.vertices :=
    (hasEdge_cast.mp ((mem_outEdges_fst h hu).mp (List.mem_map.mpr ⟨_, he, rfl⟩))).2.1
  rw [GraphImpl.weights_eq hu hv]
  rw [GraphImpl.outEdges] at he
  cases hrep : g.rep with
  | adjacencyList =>
    rw [hrep] at he
    cases hadj : g.adjLists u with
    | none => simp [hadj] at he
    | some adj =>
      obtain ⟨M, hedges⟩ := h.edges u adj hadj
      simp only [hadj, List.mem_map, List.mem_filter, Prod.mk.injEq] at he
      obtain ⟨e, ⟨hmem, -⟩, rfl, rfl⟩ := he
      show g.adjListGetEdgeWeight u e.toVertex = e.weight
      rw [GraphImpl.adjListGetEdgeWeight]
      rw [hadj]
      dsimp only
      rw [GraphImpl.edgeWeight_eq hedges, hedges.of_mem hmem]
      rfl
  | adjacencyMatrix =>
    rw [hrep] at he
    simp only [List.mem_filter, List.mem_map, Prod.mk.injEq] at he
    obtain ⟨⟨v', -, rfl, hw⟩, -⟩ := he
    exact hw

/-- A finite weight is that of an edge. -/
theorem hasEdge_of_weights (h : WellFormed g) {w : ℚ} (hw : g.weights u v = w) :
    g.hasEdge u v = true := by
  have hu : u ∈ g.vertices := (GraphImpl.mem_of_weights_ne_top (g := g) (u := u) (v := v) (by
    rw [hw]
    exact WithTop.coe_ne_top)).1
  exact (mem_outEdges_fst h hu).mp (List.mem_map.mpr ⟨(v, (w : WithTop ℚ)),
    (mem_outEdges h hu w).mpr hw, rfl⟩)

namespace Undirected

variable (hu : Undirected g)
include hu

theorem mem_left {p : ℕ × ℕ} (hp : p ∈ g.edgeSet) : p.1 ∈ g.vertices :=
  (GraphImpl.mem_of_weights_ne_top (hu.finite _ _ hp)).1

theorem mem_right {p : ℕ × ℕ} (hp : p ∈ g.edgeSet) : p.2 ∈ g.vertices :=
  (GraphImpl.mem_of_weights_ne_top (hu.finite _ _ hp)).2

/-- The weight of an edge is the number kept for it. -/
theorem weights_eq {p : ℕ × ℕ} (hp : p ∈ g.edgeSet) :
    g.weights p.1 p.2 = (g.weightOf p : WithTop ℚ) := by
  obtain ⟨w, hw⟩ := WithTop.ne_top_iff_exists.mp (hu.finite _ _ hp)
  rw [GraphImpl.weightOf, ← hw, WithTop.untopD_coe]

theorem weightOf_swap (u v : ℕ) : g.weightOf (u, v) = g.weightOf (v, u) := by
  simp only [GraphImpl.weightOf]
  rw [hu.symmetric]

theorem swap_mem (h : WellFormed g) {u v : ℕ} (huv : (u, v) ∈ g.edgeSet) :
    (v, u) ∈ g.edgeSet := by
  refine hasEdge_of_weights h (w := g.weightOf (u, v)) ?_
  rw [hu.symmetric]
  exact hu.weights_eq huv

end Undirected

/-! ## Minimum spanning forests of a graph -/

/-- The ends of an edge. -/
def WeightedEdge.pair (e : WeightedEdge) : ℕ × ℕ := (e.fromVertex, e.toVertex)

/-- The edges on a list. -/
def pairs (items : List WeightedEdge) : Finset (ℕ × ℕ) := (items.map WeightedEdge.pair).toFinset

theorem pairs_append (items : List WeightedEdge) (e : WeightedEdge) :
    pairs (items ++ [e]) = insert e.pair (pairs items) := by
  rw [pairs]
  rw [List.map_append, List.toFinset_append, Finset.union_comm]
  rfl

/-- The list is a minimum spanning forest of the edges `E`, each edge on it once and with the
weight it has in the graph. -/
structure IsMinForest (g : GraphImpl) (E : Set (ℕ × ℕ)) (items : List WeightedEdge) : Prop where
  weight_eq : ∀ e ∈ items, e.weight = g.weights e.fromVertex e.toVertex
  nodup : (items.map WeightedEdge.pair).Nodup
  minimal : IsMinSpanningForest id g.weightOf E (pairs items)

/-- The total weight of the edges on a list. -/
def totalWeight (items : List WeightedEdge) : WithTop ℚ := (items.map WeightedEdge.weight).sum

/-- Two minimum spanning forests weigh the same. -/
theorem IsMinForest.sum_eq (hu : Undirected g) {E : Set (ℕ × ℕ)} {items items' : List WeightedEdge}
    (hE : E ⊆ g.edgeSet) (h : IsMinForest g E items) (h' : IsMinForest g E items') :
    totalWeight items = totalWeight items' := by
  have htotal : ∀ {items : List WeightedEdge}, IsMinForest g E items →
      totalWeight items = ((∑ p ∈ pairs items, g.weightOf p : ℚ) : WithTop ℚ) := by
    intro items h
    rw [totalWeight, pairs]
    rw [List.sum_toFinset _ h.nodup, List.map_map]
    have hedges : ∀ e ∈ items, e.weight = (g.weightOf e.pair : WithTop ℚ) := fun e he => by
      rw [h.weight_eq e he]
      refine hu.weights_eq (p := e.pair) (hE (h.minimal.subset ?_))
      exact List.mem_toFinset.mpr (List.mem_map_of_mem he)
    clear h
    induction items with
    | nil => rfl
    | cons e es ih =>
      rw [List.map_cons, List.sum_cons, List.map_cons, List.sum_cons, WithTop.coe_add,
        hedges e List.mem_cons_self, ih fun e' he' => hedges e' (List.mem_cons_of_mem _ he')]
      rfl
  rw [htotal h, htotal h', h.minimal.sum_eq h'.minimal]

end Graph

end OvaLib
