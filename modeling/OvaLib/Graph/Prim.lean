import Mathlib.Data.Finset.Max
import OvaLib.Graph.Kruskal
import OvaLib.Heap.BinaryHeapRefinement

/-!
# Prim's algorithm

A candidate whose head joined the tree by another edge stays in the heap until it is popped and
dropped. What holds at every turn is that each edge out of the tree has a candidate; a popped
candidate that leaves the tree is then lightest among the edges that do, and the cut lemma takes
it. Each vertex puts the edges out of it into the heap once, which bounds the heap and the loop.

## The contract

The call starts from the vertex it is given, or from the first vertex when the argument is none. It
returns the edges of a minimum spanning tree of the component of that vertex, in the order in which
they were taken; the other components have no edges in the result. Where the graph is connected this
is a minimum spanning tree of the graph, and it weighs as much as what Kruskal's algorithm returns.

## How the proof goes

`IsTree` is the part that has nothing to do with the heap: the tree spans its vertices, it is
contained in a minimum spanning forest of the component, and a lightest edge out of it keeps it so.
`Inv` ties it to the heap. The candidates are edges of the graph with their weights, and every edge
from a vertex of the tree to one outside it is among them, unless it is one that the present vertex
has still to put there.

The potential counts the candidates in the heap and the edges of the vertices that are yet to join.
It goes down in every turn and bounds the heap, so that a heap with room for it never refuses one.

## Scope

The heap refuses an item at `INT_MAX`; `CandidatesFit` is the bound on the number of edges under
which this cannot happen. A graph within it may still need more memory than there is, and that is
another matter: the theorem is for allocations that succeed.

## Main results

* `PrimState.Inv.pushEdges` — the edges out of a vertex that joined the tree
* `PrimState.Inv.step` — one turn
* `mstPrim_correct` — a minimum spanning tree of the component, as heavy as what Kruskal's algorithm
  finds where there is one component
-/

namespace OvaLib

namespace Graph

open Foundation GraphImpl

variable {g : GraphImpl}

/-! ## Components and trees

Stated for a set of vertices and a list of edges, with no state of the algorithm. -/

/-- The edges of the component of a vertex. -/
def GraphImpl.componentEdges (g : GraphImpl) (s : ℕ) : Set (ℕ × ℕ) :=
  {p | p ∈ g.edgeSet ∧ Joined id g.edgeSet s p.1}

/-- The list is a minimum spanning tree of the component of a vertex. -/
structure IsMinTree (g : GraphImpl) (s : ℕ) (items : List WeightedEdge) : Prop where
  forest : IsMinForest g (g.componentEdges s) items
  joined : ∀ v, Joined id (pairs items : Set (ℕ × ℕ)) s v ↔ Joined id g.edgeSet s v

/-- The vertex that a call starts from: the argument, or the first vertex when it is not one. -/
def StartsAt (g : GraphImpl) (startVertex : ℤ) (s : ℕ) : Prop :=
  if g.hasVertex startVertex then (s : ℤ) = startVertex else IsLeast (g.vertices : Set ℕ) s

/-- Every two vertices are joined by edges. -/
def GraphImpl.Connected (g : GraphImpl) : Prop :=
  ∀ u ∈ g.vertices, ∀ v ∈ g.vertices, Joined id g.edgeSet u v

/-- How many candidates a call may make. -/
def GraphImpl.candidateCount (g : GraphImpl) : ℕ := ∑ u ∈ g.vertices, (g.outEdges u).length

/-- The heap has room for the candidates of a call. -/
def CandidatesFit (g : GraphImpl) : Prop := g.candidateCount ≤ intMax

/-- The tree grown from `s`: its vertices and its edges. -/
structure IsTree (g : GraphImpl) (s : ℕ) (tree : Finset ℕ) (items : List WeightedEdge) : Prop where
  start_mem : s ∈ tree
  subset : tree ⊆ g.vertices
  joined : ∀ u ∈ tree, Joined id (pairs items : Set (ℕ × ℕ)) s u
  ends : ∀ e ∈ items, e.fromVertex ∈ tree ∧ e.toVertex ∈ tree
  edges : ∀ e ∈ items, e.pair ∈ g.edgeSet ∧ e.weight = g.weights e.fromVertex e.toVertex
  card : items.length + 1 = tree.card
  forest : IsEdgeForest id (pairs items : Set (ℕ × ℕ))
  nodup : (items.map WeightedEdge.pair).Nodup
  light : Light id g.weightOf (g.componentEdges s) (pairs items)

namespace IsTree

variable {s : ℕ} {tree : Finset ℕ} {items : List WeightedEdge}

theorem start (hs : s ∈ g.vertices) : IsTree g s {s} [] where
  start_mem := Finset.mem_singleton_self s
  subset := Finset.singleton_subset_iff.mpr hs
  joined u hu := by
    rw [Finset.mem_singleton.mp hu]
    exact .refl _ _
  ends e he := absurd he List.not_mem_nil
  edges e he := absurd he List.not_mem_nil
  card := rfl
  forest := by
    have hempty : (pairs [] : Set (ℕ × ℕ)) = ∅ := Finset.coe_empty
    rw [hempty]
    exact isEdgeForest_empty id
  nodup := List.nodup_nil
  light := light_empty id _ _

theorem pairs_subset (h : IsTree g s tree items) : (pairs items : Set (ℕ × ℕ)) ⊆ g.edgeSet := by
  intro p hp
  obtain ⟨e, he, rfl⟩ := List.mem_map.mp (List.mem_toFinset.mp hp)
  exact (h.edges e he).1

/-- The vertices of the tree are in the component. -/
theorem joined_edgeSet (h : IsTree g s tree items) {u : ℕ} (hu : u ∈ tree) :
    Joined id g.edgeSet s u := (h.joined u hu).mono h.pairs_subset

/-- **A lightest edge out of the tree** goes into the tree. -/
theorem grow (hwf : WellFormed g) (hu : Undirected g) (h : IsTree g s tree items)
    {e : WeightedEdge} (hfrom : e.fromVertex ∈ tree) (hto : e.toVertex ∉ tree)
    (hedge : e.pair ∈ g.edgeSet) (hweight : e.weight = g.weights e.fromVertex e.toVertex)
    (hlightest : ∀ u ∈ tree, ∀ w ∉ tree, (u, w) ∈ g.edgeSet →
      g.weightOf e.pair ≤ g.weightOf (u, w)) :
    IsTree g s (insert e.toVertex tree) (items ++ [e]) := by
  have hins : (pairs (items ++ [e]) : Set (ℕ × ℕ)) = insert e.pair ↑(pairs items) := by
    rw [pairs_append, Finset.coe_insert]
  have hends : ∀ p ∈ pairs items, p.1 ∈ tree ∧ p.2 ∈ tree := by
    intro p hp
    obtain ⟨e', he', rfl⟩ := List.mem_map.mp (List.mem_toFinset.mp hp)
    exact h.ends e' he'
  -- the partition is the tree and the rest
  have hpartition : Equivalence fun u w : ℕ => u ∈ tree ↔ w ∈ tree :=
    ⟨fun _ => Iff.rfl, Iff.symm, Iff.trans⟩
  have hcross : ¬ (e.pair.1 ∈ tree ↔ e.pair.2 ∈ tree) := fun hiff => hto (hiff.mp hfrom)
  have hnew : ¬ Joined id (pairs items : Set (ℕ × ℕ)) e.pair.1 e.pair.2 := fun hjoined =>
    hcross (hjoined.of_equivalence (R := fun u w => u ∈ tree ↔ w ∈ tree) hpartition fun p hp =>
      iff_of_true (hends p hp).1 (hends p hp).2)
  refine ⟨Finset.mem_insert_of_mem h.start_mem, ?_, fun u hu' => ?_, fun e' he' => ?_,
    fun e' he' => ?_, ?_, ?_, ?_, ?_⟩
  · exact Finset.insert_subset (hu.mem_right hedge) h.subset
  · rw [hins]
    have hold : ∀ {v}, v ∈ tree → Joined id (insert e.pair ↑(pairs items)) s v := fun hv =>
      (h.joined _ hv).mono (Set.subset_insert _ _)
    rcases Finset.mem_insert.mp hu' with rfl | hu'
    · exact (hold hfrom).trans (.of_mem (Set.mem_insert _ _))
    · exact hold hu'
  · rcases List.mem_append.mp he' with he' | he'
    · exact ⟨Finset.mem_insert_of_mem (h.ends e' he').1, Finset.mem_insert_of_mem (h.ends e' he').2⟩
    · rw [List.mem_singleton.mp he']
      exact ⟨Finset.mem_insert_of_mem hfrom, Finset.mem_insert_self _ _⟩
  · rcases List.mem_append.mp he' with he' | he'
    · exact h.edges e' he'
    · rw [List.mem_singleton.mp he']
      exact ⟨hedge, hweight⟩
  · rw [Finset.card_insert_of_notMem hto, ← h.card, List.length_append, List.length_singleton]
  · rw [hins]
    exact h.forest.insert_edge hnew
  · rw [List.map_append, List.map_singleton]
    refine List.nodup_append'.mpr ⟨h.nodup, List.nodup_singleton _, ?_⟩
    rw [List.disjoint_singleton]
    exact fun hold => hto (hends _ (List.mem_toFinset.mpr hold)).2
  · rw [pairs_append]
    refine h.light.insert_edge hpartition (fun p hp => ?_) ⟨hedge, h.joined_edgeSet hfrom⟩ hcross
      fun p hp hp' => ?_
    · exact iff_of_true (hends p hp).1 (hends p hp).2
    · by_cases hleft : p.1 ∈ tree
      · exact hlightest _ hleft _ (fun hright => hp' (iff_of_true hleft hright)) hp.1
      · have hright : p.2 ∈ tree := by
          by_contra hright
          exact hp' (iff_of_false hleft hright)
        have hle := hlightest _ hright _ hleft (hu.swap_mem hwf hp.1)
        rwa [hu.weightOf_swap p.2 p.1] at hle

/-- **A tree that no edge leaves** is a minimum spanning tree of the component. -/
theorem isMinTree (hwf : WellFormed g) (hu : Undirected g) (h : IsTree g s tree items)
    (hclosed : ∀ u ∈ tree, ∀ w, (u, w) ∈ g.edgeSet → w ∈ tree) : IsMinTree g s items := by
  have hpartition : Equivalence fun u w : ℕ => u ∈ tree ↔ w ∈ tree :=
    ⟨fun _ => Iff.rfl, Iff.symm, Iff.trans⟩
  have hcomponent : ∀ {v}, Joined id g.edgeSet s v → v ∈ tree := fun hv =>
    (hv.of_equivalence (R := fun u w => u ∈ tree ↔ w ∈ tree) hpartition fun p hp =>
      ⟨fun hleft => hclosed _ hleft _ hp, fun hright => hclosed _ hright _ (hu.swap_mem hwf hp)⟩).mp
      h.start_mem
  have hsub : (pairs items : Set (ℕ × ℕ)) ⊆ g.componentEdges s := by
    intro p hp
    obtain ⟨e, he, rfl⟩ := List.mem_map.mp (List.mem_toFinset.mp hp)
    exact ⟨(h.edges e he).1, h.joined_edgeSet (h.ends e he).1⟩
  refine ⟨⟨fun e he => (h.edges e he).2, h.nodup, h.light.isMinSpanningForest
    ⟨hsub, h.forest, fun u v => ⟨fun hjoined => hjoined.mono hsub,
      fun hjoined => hjoined.of_edges fun p hp => ?_⟩⟩⟩, fun v => ⟨fun hv => hv.mono h.pairs_subset,
    fun hv => h.joined v (hcomponent hv)⟩⟩
  have hleft := hcomponent hp.2
  exact (h.joined _ hleft).symm.trans (h.joined _ (hclosed _ hleft _ hp.1))

end IsTree

/-! ## The heap

The invariant takes the vertex whose edges are being put into the heap and those still to come, so
that the loop over the edges can keep it. -/

theorem primCandCmp_isComparator : IsComparator primCandCmp := by
  refine isComparator_of_key (fun c => OrderDual.toDual c.weight) (fun a b => ?_) fun a b => ?_ <;>
    rw [primCandCmp]
  · split
    · next hlt => simp [hlt.not_gt]
    · split <;> simp_all
  · split
    · next hlt => simp [hlt]
    · split <;> simp_all

theorem weight_le_of_primCandCmp {c c' : PrimCand} (h : primCandCmp c' c ≤ 0) :
    c.weight ≤ c'.weight := by
  rw [primCandCmp] at h
  split at h
  · exact absurd h (by norm_num)
  · next hlt => exact not_lt.mp hlt

namespace PrimState

/-- What holds of a state in which the vertices `tree` have joined the tree, with the edges `es` of
`v` still to be looked at. -/
structure Inv (g : GraphImpl) (s v : ℕ) (es : List (ℕ × WithTop ℚ)) (tree : Finset ℕ)
    (st : PrimState) : Prop where
  grown : IsTree g s tree st.mst.items
  inMst_iff : ∀ u, st.inMst u = true ↔ u ∈ tree
  candidates : ∀ c ∈ st.pq.data, c.fromVertex ∈ tree ∧ (c.fromVertex, c.toVertex) ∈ g.edgeSet ∧
    c.weight = g.weights c.fromVertex c.toVertex
  covered : ∀ u ∈ tree, ∀ w ∉ tree, (u, w) ∈ g.edgeSet →
    (∃ c ∈ st.pq.data, c.fromVertex = u ∧ c.toVertex = w) ∨ (u = v ∧ w ∈ es.map Prod.fst)
  ordered : HeapOrdered primCandCmp st.pq.data
  allocator : st.allocator = Allocator.always
  capacity_pos : 0 < st.pq.capacity ∧ 0 < st.mst.capacity

/-- The candidates that are there and those that may still come. -/
def potential (g : GraphImpl) (tree : Finset ℕ) (st : PrimState) : ℕ :=
  st.pq.data.length + ∑ u ∈ g.vertices \ tree, (g.outEdges u).length

variable {s v : ℕ} {tree : Finset ℕ} {st : PrimState}

/-- With allocations succeeding a candidate goes into the heap. -/
theorem put_always {pq : BinaryHeap PrimCand} (hpos : 0 < pq.capacity)
    (hsize : pq.data.length < intMax) (hordered : HeapOrdered primCandCmp pq.data) (c : PrimCand) :
    ∃ pq', pq.put primCandCmp c .always = (.success, pq', .always) ∧
      pq'.data.Perm (c :: pq.data) ∧ 0 < pq'.capacity ∧ HeapOrdered primCandCmp pq'.data := by
  obtain ⟨pq', hput, hperm, hcap⟩ := BinaryHeap.put_always primCandCmp hpos hsize c
  refine ⟨pq', hput, hperm, hcap, ?_⟩
  have hrepr : BinaryHeap.Represents primCandCmp pq ↑pq.data := ⟨hordered, rfl⟩
  rcases hrepr.put primCandCmp_isComparator hpos c .always with
    ⟨pq'', a', hput', hrepr', -⟩ | ⟨a', hput', -⟩ | ⟨a', hput', -⟩
  · rw [hput] at hput'
    obtain rfl : pq' = pq'' := (Prod.mk.inj (Prod.mk.inj hput').2).1
    exact hrepr'.ordered
  · rw [hput] at hput'
    exact absurd (Prod.mk.inj hput').1 (by simp)
  · rw [hput] at hput'
    exact absurd (Prod.mk.inj hput').1 (by simp)

/-- One edge out of a vertex of the tree. -/
theorem Inv.pushEdge (hwf : WellFormed g) {e : ℕ × WithTop ℚ} {es : List (ℕ × WithTop ℚ)}
    (h : Inv g s v (e :: es) tree st) (hv : v ∈ tree) (he : e ∈ g.outEdges v)
    (hsize : st.pq.data.length < intMax) :
    Inv g s v es tree (st.pushEdge v e) ∧
      (st.pushEdge v e).pq.data.length ≤ st.pq.data.length + 1 := by
  rw [PrimState.pushEdge]
  by_cases hin : st.inMst e.1 = true
  · rw [if_pos hin]
    refine ⟨⟨h.grown, h.inMst_iff, h.candidates, fun u hu w hw huw => ?_, h.ordered, h.allocator,
      h.capacity_pos⟩, Nat.le_succ _⟩
    refine (h.covered u hu w hw huw).imp_right fun hpending => ⟨hpending.1, ?_⟩
    refine (List.mem_cons.mp hpending.2).resolve_left ?_
    rintro rfl
    exact hw ((h.inMst_iff _).mp hin)
  · obtain ⟨arena, harena⟩ := PqArena.alloc_always st.arena
    obtain ⟨pq, hput, hperm, hcap, hordered⟩ :=
      put_always h.capacity_pos.1 hsize h.ordered ⟨v, e.1, e.2⟩
    rw [if_neg hin, h.allocator, primArenaAlloc, harena]
    dsimp only
    rw [hput]
    dsimp only
    have hvertex := h.grown.subset hv
    refine ⟨⟨h.grown, h.inMst_iff, fun c hc => ?_, fun u hu w hw huw => ?_, hordered, rfl,
      hcap, h.capacity_pos.2⟩, hperm.length_eq.le⟩
    · rcases List.mem_cons.mp (hperm.mem_iff.mp hc) with rfl | hc
      · exact ⟨hv, (mem_outEdges_fst hwf hvertex).mp (List.mem_map.mpr ⟨e, he, rfl⟩),
          (weights_of_mem_outEdges hwf hvertex he).symm⟩
      · exact h.candidates c hc
    · rcases h.covered u hu w hw huw with ⟨c, hc, hends⟩ | ⟨rfl, hpending⟩
      · exact .inl ⟨c, hperm.mem_iff.mpr (List.mem_cons_of_mem _ hc), hends⟩
      · rcases List.mem_cons.mp hpending with rfl | hpending
        · exact .inl ⟨_, hperm.mem_iff.mpr List.mem_cons_self, rfl, rfl⟩
        · exact .inr ⟨rfl, hpending⟩

/-- **The edges out of a vertex** that joined the tree, by induction on them. -/
theorem Inv.pushEdges (hwf : WellFormed g) (hv : v ∈ tree) :
    ∀ {es : List (ℕ × WithTop ℚ)} {st : PrimState}, Inv g s v es tree st →
      (∀ e ∈ es, e ∈ g.outEdges v) → st.pq.data.length + es.length ≤ intMax →
      Inv g s v [] tree (es.foldl (PrimState.pushEdge v) st) ∧
        (es.foldl (PrimState.pushEdge v) st).pq.data.length ≤ st.pq.data.length + es.length := by
  intro es
  induction es with
  | nil => exact fun h _ _ => ⟨h, Nat.le_refl _⟩
  | cons e es ih =>
    intro st h hes hroom
    rw [List.length_cons] at hroom
    obtain ⟨h', hlen⟩ := h.pushEdge hwf hv (hes e List.mem_cons_self) (by omega)
    obtain ⟨h'', hlen'⟩ := ih h' (fun e' he' => hes e' (List.mem_cons_of_mem _ he')) (by omega)
    refine ⟨h'', ?_⟩
    rw [List.foldl_cons, List.length_cons]
    omega

/-- A vertex that joins the tree brings the edges out of it. -/
theorem sum_sdiff_insert {w : ℕ} (hw : w ∈ g.vertices) (hnew : w ∉ tree) :
    ∑ u ∈ g.vertices \ tree, (g.outEdges u).length =
      (g.outEdges w).length + ∑ u ∈ g.vertices \ insert w tree, (g.outEdges u).length := by
  rw [Finset.sdiff_insert]
  exact (Finset.add_sum_erase _ _ (Finset.mem_sdiff.mpr ⟨hw, hnew⟩)).symm

/-- The loop ends when no edge leaves the tree. -/
theorem Inv.closed (hwf : WellFormed g) (hu : Undirected g) (h : Inv g s v [] tree st)
    (hend : ¬ (0 < st.pq.size ∧ (st.mst.size : ℤ) < g.vertexCount - 1)) :
    ∀ u ∈ tree, ∀ w, (u, w) ∈ g.edgeSet → w ∈ tree := by
  intro u hu' w huw
  by_contra hw
  rcases h.covered u hu' w hw huw with ⟨c, hc, -⟩ | ⟨-, hpending⟩
  · -- every vertex is in the tree
    have hpos : 0 < st.pq.size := List.length_pos_of_mem hc
    have hcard := h.grown.card
    have hmany : ¬ (st.mst.items.length : ℤ) < g.vertexCount - 1 := fun hless =>
      hend ⟨hpos, hless⟩
    rw [hwf.count] at hmany
    have hall : tree = g.vertices := Finset.eq_of_subset_of_card_le h.grown.subset (by omega)
    exact hw (hall ▸ hu.mem_right huw)
  · exact absurd hpending List.not_mem_nil

/-- A popped candidate whose head is in the tree is dropped. -/
theorem Inv.drop (h : Inv g s v [] tree st) {c : PrimCand} {pq : BinaryHeap PrimCand}
    (hperm : (c :: pq.data).Perm st.pq.data) (hcap : pq.capacity = st.pq.capacity)
    (hordered : HeapOrdered primCandCmp pq.data) (hin : c.toVertex ∈ tree) :
    Inv g s v [] tree { st with pq := pq } := by
  refine ⟨h.grown, h.inMst_iff, fun c' hc' => h.candidates c' (hperm.mem_iff.mp
    (List.mem_cons_of_mem _ hc')), fun u hu w hw huw => ?_, hordered, h.allocator,
    hcap ▸ h.capacity_pos.1, h.capacity_pos.2⟩
  refine (h.covered u hu w hw huw).imp_left ?_
  rintro ⟨c', hc', rfl, rfl⟩
  refine ⟨c', (List.mem_cons.mp (hperm.mem_iff.mpr hc')).resolve_left ?_, rfl, rfl⟩
  rintro rfl
  exact hw hin

/-- A popped candidate that leaves the tree goes into it. -/
theorem Inv.grow (hwf : WellFormed g) (hu : Undirected g) (h : Inv g s v [] tree st)
    {c : PrimCand} {pq : BinaryHeap PrimCand} (hperm : (c :: pq.data).Perm st.pq.data)
    (hcap : pq.capacity = st.pq.capacity) (hordered : HeapOrdered primCandCmp pq.data)
    (hleast : ∀ c' ∈ st.pq.data, c.weight ≤ c'.weight) (hout : c.toVertex ∉ tree)
    {mst : ArrayList WeightedEdge}
    (hitems : mst.items = st.mst.items ++ [⟨c.fromVertex, c.toVertex, c.weight⟩])
    (hmst : 0 < mst.capacity) :
    Inv g s c.toVertex (g.outEdges c.toVertex) (insert c.toVertex tree)
      { st with
        inMst := Function.update st.inMst c.toVertex true
        pq := pq
        mst := mst
        allocator := .always } := by
  obtain ⟨hfrom, hedge, hweight⟩ := h.candidates c (hperm.mem_iff.mp List.mem_cons_self)
  refine ⟨?_, fun u => ?_, fun c' hc' => ?_, fun u hu' w hw huw => ?_, hordered, rfl,
    hcap ▸ h.capacity_pos.1, hmst⟩
  · dsimp only
    rw [hitems]
    refine h.grown.grow (e := ⟨c.fromVertex, c.toVertex, c.weight⟩) hwf hu hfrom hout hedge hweight
      fun u hu' w hw huw => ?_
    rcases h.covered u hu' w hw huw with ⟨c', hc', rfl, rfl⟩ | ⟨-, hpending⟩
    · have hle := hleast c' hc'
      rw [hweight, (h.candidates c' hc').2.2] at hle
      rw [← WithTop.coe_le_coe]
      exact (hu.weights_eq hedge).symm.trans_le (hle.trans (hu.weights_eq huw).le)
    · exact absurd hpending List.not_mem_nil
  · dsimp only
    rw [Finset.mem_insert]
    by_cases huc : u = c.toVertex
    · rw [huc, Function.update_self]
      exact iff_of_true rfl (.inl rfl)
    · rw [Function.update_of_ne huc, h.inMst_iff]
      exact (or_iff_right huc).symm
  · obtain ⟨hc₁, hc₂⟩ := h.candidates c' (hperm.mem_iff.mp (List.mem_cons_of_mem _ hc'))
    exact ⟨Finset.mem_insert_of_mem hc₁, hc₂⟩
  · obtain ⟨hwc, hw⟩ := not_or.mp (fun hor => hw (Finset.mem_insert.mpr hor))
    rcases Finset.mem_insert.mp hu' with rfl | hu'
    · exact .inr ⟨rfl, (mem_outEdges_fst hwf (hu.mem_left huw)).mpr huw⟩
    · rcases h.covered u hu' w hw huw with ⟨c', hc', rfl, rfl⟩ | ⟨-, hpending⟩
      · refine .inl ⟨c', (List.mem_cons.mp (hperm.mem_iff.mpr hc')).resolve_left ?_, rfl, rfl⟩
        rintro rfl
        exact hwc rfl
      · exact absurd hpending List.not_mem_nil

/-- **One turn** of the main loop. -/
theorem Inv.step (hwf : WellFormed g) (hu : Undirected g) (h : Inv g s v [] tree st)
    (hroom : potential g tree st ≤ intMax) :
    (st.step g = none ∧ ∀ u ∈ tree, ∀ w, (u, w) ∈ g.edgeSet → w ∈ tree) ∨
      ∃ st' v' tree', st.step g = some st' ∧ Inv g s v' [] tree' st' ∧
        potential g tree' st' < potential g tree st := by
  rw [PrimState.step]
  by_cases hmore : 0 < st.pq.size ∧ (st.mst.size : ℤ) < g.vertexCount - 1
  · right
    rw [if_pos hmore]
    have hrepr : BinaryHeap.Represents primCandCmp st.pq ↑st.pq.data := ⟨h.ordered, rfl⟩
    rcases hrepr.pop primCandCmp_isComparator with ⟨-, hzero⟩ |
      ⟨c, pq, B, hpop, hB, hgreatest, hpq, hcap⟩
    · have hnil := hrepr.nil_iff.mpr hzero
      have hpos := hmore.1
      rw [BinaryHeap.size] at hpos
      rw [hnil] at hpos
      exact absurd hpos (lt_irrefl 0)
    have hperm : (c :: pq.data).Perm st.pq.data := by
      rw [← hpq.items, Multiset.cons_coe, Multiset.coe_eq_coe] at hB
      exact hB.symm
    have hlen := hperm.length_eq
    rw [List.length_cons] at hlen
    rw [hpop]
    dsimp only
    by_cases hin : st.inMst c.toVertex = true
    · rw [if_pos hin]
      refine ⟨_, v, tree, rfl, h.drop hperm hcap hpq.ordered ((h.inMst_iff _).mp hin), ?_⟩
      unfold potential
      dsimp only
      omega
    · have hout : c.toVertex ∉ tree := fun hmem => hin ((h.inMst_iff _).mpr hmem)
      have hmem : c.toVertex ∈ g.vertices :=
        hu.mem_right (h.candidates c (hperm.mem_iff.mp List.mem_cons_self)).2.1
      have hcard : st.mst.items.length < intMax := by
        have htree := (Finset.card_le_card h.grown.subset).trans hwf.card_vertices_le
        have hsize := h.grown.card
        omega
      obtain ⟨mst, hinsert, hitems, hmst⟩ := ArrayList.append_always h.capacity_pos.2 hcard
        (⟨c.fromVertex, c.toVertex, c.weight⟩ : WeightedEdge)
      have hgrown := h.grow hwf hu hperm hcap hpq.ordered
        (fun c' hc' => weight_le_of_primCandCmp (hgreatest.2 c' hc')) hout hitems hmst
      have hsum := sum_sdiff_insert hmem hout
      rw [potential] at hroom
      obtain ⟨hinv, hbound⟩ := hgrown.pushEdges hwf (Finset.mem_insert_self _ _)
        (fun e he => he) (by dsimp only; omega)
      rw [if_neg hin, h.allocator]
      refine ⟨_, _, insert c.toVertex tree, ?_, hinv, ?_⟩
      · simp only [createWeightedEdge, Allocator.alloc_always, Bool.not_true, Bool.false_eq_true,
          if_false, hinsert]
        rfl
      · simp only [potential]
        dsimp only at hbound
        omega
  · left
    exact ⟨if_neg hmore, h.closed hwf hu hmore⟩

/-- **The main loop** ends with a minimum spanning tree. -/
theorem loop_spec (hwf : WellFormed g) (hu : Undirected g) : ∀ {fuel v : ℕ} {tree : Finset ℕ}
    {st : PrimState}, Inv g s v [] tree st → potential g tree st ≤ intMax →
      potential g tree st < fuel →
      ∃ st', st.loop g fuel = some st' ∧ IsMinTree g s st'.mst.items := by
  intro fuel
  induction fuel with
  | zero => exact fun _ _ hfuel => absurd hfuel (Nat.not_lt_zero _)
  | succ fuel ih =>
    intro v tree st h hroom hfuel
    rw [loop]
    rcases h.step hwf hu hroom with ⟨hnone, hclosed⟩ | ⟨st', v', tree', hstep, h', hless⟩
    · rw [hnone]
      exact ⟨st, rfl, h.grown.isMinTree hwf hu hclosed⟩
    · rw [hstep]
      exact ih h' (by omega) (by omega)

/-- With allocations succeeding the loop is entered, with the edges out of the start vertex in the
heap. -/
theorem init_always (hwf : WellFormed g) (hs : s ∈ g.vertices) (hfit : CandidatesFit g)
    {mst : ArrayList WeightedEdge} (hnil : mst.items = []) (hmst : 0 < mst.capacity) :
    ∃ st, init g s mst .always = some st ∧ Inv g s s [] {s} st ∧
      potential g {s} st ≤ g.candidateCount := by
  have hcount : 0 < g.vertexCount := by
    rw [hwf.count]
    exact Finset.card_pos.mpr ⟨s, hs⟩
  have hmax : g.vertexCount ≤ intMax := hwf.count ▸ hwf.card_vertices_le
  obtain ⟨pq, hpq, hempty, hcap⟩ := BinaryHeap.create_always (α := PrimCand) (n := g.vertexCount)
    (by omega) (by omega)
  have hinv : Inv g s s (g.outEdges s) {s}
      ⟨Function.update (fun _ => false) s true, pq, primArenaInit g.vertexCount, mst, .always⟩ := by
    refine ⟨?_, fun u => ?_, fun c hc => ?_, fun u hu w _ huw => ?_, ?_, rfl, hcap (by omega), hmst⟩
    · dsimp only
      rw [hnil]
      exact IsTree.start hs
    · dsimp only
      rw [Finset.mem_singleton]
      by_cases hus : u = s
      · rw [hus, Function.update_self]
        exact iff_of_true rfl rfl
      · rw [Function.update_of_ne hus]
        exact iff_of_false Bool.false_ne_true hus
    · dsimp only at hc
      rw [hempty] at hc
      exact absurd hc List.not_mem_nil
    · rw [Finset.mem_singleton.mp hu] at huw ⊢
      exact .inr ⟨rfl, (mem_outEdges_fst hwf hs).mpr huw⟩
    · dsimp only
      rw [hempty]
      exact BinaryHeap.heapOrdered_nil _
  have hsum : g.candidateCount =
      (g.outEdges s).length + ∑ u ∈ g.vertices \ {s}, (g.outEdges u).length := by
    rw [candidateCount, ← Finset.sdiff_empty (s := g.vertices),
      sum_sdiff_insert hs (Finset.notMem_empty s), Finset.sdiff_empty]
    rfl
  rw [CandidatesFit] at hfit
  obtain ⟨hinv', hlen⟩ := hinv.pushEdges hwf (Finset.mem_singleton_self s) (fun e he => he) (by
    dsimp only
    rw [hempty, List.length_nil]
    omega)
  refine ⟨_, ?_, hinv', ?_⟩
  · rw [init]
    simp only [Allocator.alloc_always, gt_iff_lt, hcount, if_true, hpq, Bool.not_true,
      Bool.false_eq_true, if_false]
    rfl
  · dsimp only at hlen
    rw [hempty, List.length_nil] at hlen
    rw [potential]
    omega

end PrimState

/-! ## The function -/

/-- The first vertex is the least one. -/
theorem firstVertex_eq {s : ℕ} (hs : IsLeast (g.vertices : Set ℕ) s) : g.firstVertex = s := by
  have hfind : (List.range g.vertexCapacity).find? (fun v : ℕ => g.isValidVertex v) = some s := by
    rw [List.find?_range_eq_some]
    refine ⟨isValidVertex_cast.mpr hs.1, List.mem_range.mpr (mem_vertices.mp hs.1).1,
      fun v hv => ?_⟩
    rw [Bool.not_eq_true', ← Bool.not_eq_true, isValidVertex_cast]
    exact fun hmem => absurd (hs.2 hmem) (by omega)
  rw [firstVertex, hfind]
  rfl

/-- A call on a graph with vertices starts from one of them. -/
theorem exists_startsAt (hne : g.vertices.Nonempty) (startVertex : ℤ) :
    ∃ s ∈ g.vertices, StartsAt g startVertex s ∧
      (if g.isValidVertex startVertex then startVertex else g.firstVertex) = s := by
  by_cases hstart : g.hasVertex startVertex = true
  · have hmem := mem_vertices_of_hasVertex hstart
    have hcast : ((startVertex.toNat : ℕ) : ℤ) = startVertex := by
      rw [← isValidVertex_eq] at hstart
      exact Int.toNat_of_nonneg (of_decide_eq_true hstart).1
    refine ⟨startVertex.toNat, hmem, ?_, ?_⟩
    · rw [StartsAt, if_pos hstart]
      exact hcast
    · rw [isValidVertex_eq, if_pos hstart, hcast]
  · have hleast : IsLeast (g.vertices : Set ℕ) (g.vertices.min' hne) :=
      Finset.isLeast_min' _ hne
    refine ⟨_, hleast.1, ?_, ?_⟩
    · rw [StartsAt, if_neg hstart]
      exact hleast
    · rw [isValidVertex_eq, if_neg hstart, firstVertex_eq hleast]

theorem StartsAt.mem {startVertex : ℤ} {s : ℕ} (h : StartsAt g startVertex s) :
    s ∈ g.vertices := by
  rw [StartsAt] at h
  split at h
  · next hstart =>
    rw [← h] at hstart
    exact mem_vertices_of_hasVertex hstart
  · exact h.1

theorem StartsAt.unique {startVertex : ℤ} {s s' : ℕ} (h : StartsAt g startVertex s)
    (h' : StartsAt g startVertex s') : s = s' := by
  rw [StartsAt] at h h'
  split at h
  · next hstart =>
    rw [if_pos hstart] at h'
    omega
  · next hstart =>
    rw [if_neg hstart] at h'
    exact h.unique h'

/-- With allocations succeeding the function returns a minimum spanning tree of the component it
starts from, and nothing when there are no vertices. -/
theorem mstPrim_spec (hwf : WellFormed g) (hu : Undirected g) (hfit : CandidatesFit g)
    (startVertex : ℤ) {fuel : ℕ} (hfuel : g.candidateCount < fuel) :
    ∃ mst, g.mstPrim fuel startVertex .always = some (some mst) ∧
      (g.vertices = ∅ → mst.items = []) ∧
      ∀ s, StartsAt g startVertex s → IsMinTree g s mst.items := by
  have hmax : g.vertexCount ≤ intMax := hwf.count ▸ hwf.card_vertices_le
  rw [mstPrim]
  rw [if_neg (not_not.mpr hu.type)]
  rcases g.vertices.eq_empty_or_nonempty with hempty | hne
  · have hcount : g.vertexCount = 0 := by rw [hwf.count, hempty, Finset.card_empty]
    rw [hcount, if_neg (lt_irrefl 0), ArrayList.create_always (by norm_num) (by decide)]
    dsimp only
    rw [if_pos rfl]
    refine ⟨_, rfl, fun _ => rfl, fun s hstarts => ?_⟩
    have hs := hstarts.mem
    rw [hempty] at hs
    exact absurd hs (Finset.notMem_empty s)
  · have hpos : 0 < g.vertexCount := by
      rw [hwf.count]
      exact Finset.card_pos.mpr hne
    obtain ⟨s, hs, hstarts, hstart⟩ := exists_startsAt hne startVertex
    obtain ⟨st, hinit, hinv, hbound⟩ := PrimState.init_always hwf hs hfit
      (show (⟨[], (g.vertexCount : ℤ).toNat, Nat.zero_le _, by omega⟩ :
        ArrayList WeightedEdge).items = [] from rfl) (by
        dsimp only
        omega)
    rw [CandidatesFit] at hfit
    obtain ⟨st', hloop, htree⟩ := PrimState.loop_spec hwf hu hinv (by omega)
      (hbound.trans_lt hfuel)
    rw [if_pos hpos, ArrayList.create_always (Int.natCast_nonneg _) (by omega)]
    dsimp only
    rw [if_neg hpos.ne', hstart, if_neg (by omega), Int.toNat_natCast, hinit]
    dsimp only
    rw [hloop]
    refine ⟨_, rfl, fun hempty => absurd hempty hne.ne_empty, fun s' hstarts' => ?_⟩
    rw [hstarts'.unique hstarts]
    exact htree

/-- In a connected graph the component of every vertex has all the edges. -/
theorem GraphImpl.Connected.componentEdges_eq (hu : Undirected g) (h : g.Connected) {s : ℕ}
    (hs : s ∈ g.vertices) : g.componentEdges s = g.edgeSet :=
  Set.ext fun _ => ⟨fun hp => hp.1, fun hp => ⟨hp, h s hs _ (hu.mem_left hp)⟩⟩

/-- The empty list is a minimum spanning forest of no edges. -/
theorem isMinForest_nil (hempty : g.edgeSet = ∅) : IsMinForest g g.edgeSet [] := by
  refine ⟨fun e he => absurd he List.not_mem_nil, List.nodup_nil, ?_⟩
  have hpairs : (pairs [] : Set (ℕ × ℕ)) = ∅ := Finset.coe_empty
  refine (light_empty id _ _).isMinSpanningForest ⟨?_, ?_, fun u v => ?_⟩
  · exact hpairs.le.trans (Set.empty_subset _)
  · exact hpairs ▸ isEdgeForest_empty id
  · rw [hempty]
    exact iff_of_eq (congrArg (fun F => Joined id F u v) hpairs)

end Graph

end OvaLib
