import OvaLib.Foundation.Comparator
import OvaLib.Graph.SpanningTrees

/-!
# Kruskal's algorithm

The collection meets every edge of an undirected graph twice and keeps it the time it comes from
the smaller end. In the main loop two vertices have one root when the edges taken so far join them;
the next edge is lightest among those that join two classes, so the cut lemma takes it. The loop
stops early only when there is one class left.

## How the proof goes

The invariant of the main loop has four parts: the edges taken so far can be completed to a spanning
forest as light as any, they are edges of the graph with their weights, two vertices have one root
in the union-find arrays exactly when those edges join them, and no edge looked at so far joins two
classes any more.
A turn finds both roots. If they are equal the edge is passed over; if not, it is lightest among the
edges between classes, since the list is sorted and everything before it joins nothing.

The early exit comes when as many edges are taken as there are vertices less one. A forest with so
many edges has one class.

## Scope

Any sorting of the edges that `qsort` may produce: among edges of the same weight every order leads
to a minimum spanning forest, if not to the same one. The array of the edges doubles, and its
capacity is an `int`; `EdgesFit` is the bound under which no doubling wraps. It is a bound on the
number of edges, `2 ^ 30`; beyond it the array cannot grow, and edges are left out.

## Main results

* `collectEdges_always` — the collected edges
* `KruskalState.Inv.take` — one edge, taken or not
* `mstKruskal_correct` — a minimum spanning forest
-/

namespace OvaLib

namespace Graph

open Foundation

/-! ## Collecting the edges

What the collection keeps is described first without the array, as a list over the graph; the array
is then that list, as long as it can grow. -/

namespace GraphImpl

/-- The edges that the collection keeps: each the time it comes from its smaller end. -/
def kept (g : GraphImpl) : List WeightedEdge :=
  ((List.range g.vertexCapacity).filter fun v : ℕ => g.isValidVertex v).flatMap fun v =>
    ((g.outEdges v).filter fun e => v < e.1).map fun e => ⟨v, e.1, e.2⟩

end GraphImpl

/-- A record is made for an edge and goes into the array. -/
def collectOne (r : EdgeVec × Allocator) (e : WeightedEdge) : EdgeVec × Allocator :=
  match createWeightedEdge e.fromVertex e.toVertex e.weight r.2 with
  | (none, a) => (r.1, a)
  | (some we, a) =>
    match edgeVecPush r.1 we a with
    | (none, a) => (r.1, a)
    | (some edges, a) => (edges, a)

/-- The array of the edges can be had: its capacity stays an `int` when it doubles. -/
def EdgesFit (g : GraphImpl) : Prop := g.kept.length ≤ 2 ^ 30

variable {g : GraphImpl}

open GraphImpl

/-- The collection is a loop over the edges that it keeps. -/
theorem collectEdges_eq (a : Allocator) :
    g.collectEdges a = g.kept.foldl collectOne (⟨[], 0⟩, a) := by
  have hrow : ∀ (v : ℕ) (r : EdgeVec × Allocator), (g.outEdges v).foldl (collectEdge v) r =
      (((g.outEdges v).filter fun e => v < e.1).map fun e => ⟨v, e.1, e.2⟩).foldl collectOne r := by
    intro v r
    rw [List.foldl_map, List.foldl_filter]
    congr 1
    funext r e
    rw [collectEdge]
    by_cases hlt : v < e.1
    · rw [if_neg (Nat.not_le.mpr hlt), decide_eq_true hlt, if_pos rfl]
      rfl
    · rw [if_pos (Nat.not_lt.mp hlt), if_neg (by simpa using hlt)]
  rw [collectEdges, kept]
  rw [List.foldl_flatMap, List.foldl_filter]
  congr 1
  funext r v
  rw [← hrow]
  cases g.isValidVertex v <;> rfl

/-- With allocations succeeding an edge goes into the array. -/
theorem edgeVecPush_always {v : EdgeVec} (hcap : (v.items.length : ℤ) ≤ v.cap)
    (hroom : v.items.length < 2 ^ 30) (e : WeightedEdge) :
    ∃ v', edgeVecPush v e .always = (some v', .always) ∧ v'.items = v.items ++ [e] ∧
      (v'.items.length : ℤ) ≤ v'.cap := by
  have hlen : ((v.items ++ [e]).length : ℤ) = v.items.length + 1 := by
    rw [List.length_append, List.length_singleton]
    rfl
  rw [edgeVecPush]
  split
  · next hfull =>
    dsimp only
    by_cases hpos : v.cap > 0
    · rw [if_pos hpos, int32_eq (by omega) (by omega), if_neg (by simp; omega)]
      refine ⟨_, rfl, rfl, ?_⟩
      dsimp only
      omega
    · rw [if_neg hpos]
      refine ⟨_, rfl, rfl, ?_⟩
      dsimp only
      omega
  · refine ⟨_, rfl, rfl, ?_⟩
    dsimp only
    omega

theorem foldl_collectOne : ∀ (es : List WeightedEdge) {r : EdgeVec},
    (r.items.length : ℤ) ≤ r.cap → r.items.length + es.length ≤ 2 ^ 30 →
    ∃ v, es.foldl collectOne (r, .always) = (v, .always) ∧ v.items = r.items ++ es := by
  intro es
  induction es with
  | nil => exact fun {r} _ _ => ⟨r, rfl, (List.append_nil _).symm⟩
  | cons e es ih =>
    intro r hcap hroom
    rw [List.length_cons] at hroom
    obtain ⟨r', hpush, hitems, hcap'⟩ := edgeVecPush_always hcap (by omega) e
    have hone : collectOne (r, .always) e = (r', .always) := by
      simp only [collectOne, createWeightedEdge, Allocator.alloc_always, Bool.not_true,
        Bool.false_eq_true, if_false, hpush]
    obtain ⟨v, hrun, hitems'⟩ := ih hcap' (by
      rw [hitems, List.length_append, List.length_singleton]
      omega)
    refine ⟨v, ?_, ?_⟩
    · rw [List.foldl_cons, hone, hrun]
    · rw [hitems', hitems, List.append_assoc, List.singleton_append]

/-- **The collected edges**, with allocations succeeding. -/
theorem collectEdges_always (hfit : EdgesFit g) :
    ∃ v, g.collectEdges .always = (v, .always) ∧ v.items = g.kept := by
  obtain ⟨v, hrun, hitems⟩ := foldl_collectOne g.kept (r := ⟨[], 0⟩) (le_refl _) (by
    rw [List.length_nil, Nat.zero_add]
    exact hfit)
  exact ⟨v, (collectEdges_eq _).trans hrun, hitems⟩

/-- An edge is collected when it comes from its smaller end. -/
theorem mem_kept {e : WeightedEdge} : e ∈ g.kept ↔ e.fromVertex ∈ g.vertices ∧
    (e.toVertex, e.weight) ∈ g.outEdges e.fromVertex ∧ e.fromVertex < e.toVertex := by
  rw [kept]
  simp only [List.mem_flatMap, List.mem_filter, List.mem_range, List.mem_map, decide_eq_true_eq]
  constructor
  · rintro ⟨u, ⟨-, hu⟩, p, ⟨hp, hlt⟩, rfl⟩
    exact ⟨isValidVertex_cast.mp hu, hp, hlt⟩
  · rintro ⟨hu, hp, hlt⟩
    exact ⟨e.fromVertex, ⟨(mem_vertices.mp hu).1, isValidVertex_cast.mpr hu⟩,
      (e.toVertex, e.weight), ⟨hp, hlt⟩, rfl⟩

/-- A collected edge is an edge of the graph, with its weight. -/
theorem edge_of_mem_kept (hwf : WellFormed g) {e : WeightedEdge}
    (he : e ∈ g.kept) : e.pair ∈ g.edgeSet ∧ e.weight = g.weights e.fromVertex e.toVertex := by
  obtain ⟨hmem, hout, -⟩ := mem_kept.mp he
  have hedge : e.pair ∈ g.edgeSet :=
    (mem_outEdges_fst hwf hmem).mp (List.mem_map.mpr ⟨_, hout, rfl⟩)
  exact ⟨hedge, (weights_of_mem_outEdges hwf hmem hout).symm⟩

/-- Every edge between different vertices is collected, from one end or the other. -/
theorem exists_kept (hwf : WellFormed g) (hu : Undirected g) {p : ℕ × ℕ} (hp : p ∈ g.edgeSet)
    (hne : p.1 ≠ p.2) : ∃ e ∈ g.kept, e.weight = (g.weightOf p : WithTop ℚ) ∧
      (e.pair = p ∨ e.pair = p.swap) := by
  have hkept : ∀ {u v : ℕ}, (u, v) ∈ g.edgeSet → u < v →
      (⟨u, v, (g.weightOf (u, v) : WithTop ℚ)⟩ : WeightedEdge) ∈ g.kept := fun {u v} huv hlt =>
    mem_kept.mpr ⟨hu.mem_left huv, (mem_outEdges hwf (hu.mem_left huv) _).mpr
      (hu.weights_eq huv), hlt⟩
  rcases lt_or_gt_of_ne hne with hlt | hgt
  · exact ⟨_, hkept hp hlt, rfl, .inl rfl⟩
  · refine ⟨_, hkept (hu.swap_mem hwf hp) hgt, ?_, .inr rfl⟩
    rw [hu.weightOf_swap]

/-! ## The main loop

Each turn takes the sorted list apart by one edge, so the induction is on the list. -/

theorem edgeCmpQsort_le {e e' : WeightedEdge} (h : edgeCmpQsort e e' ≤ 0) :
    e.weight ≤ e'.weight := by
  rw [edgeCmpQsort] at h
  split at h
  · next hlt => exact hlt.le
  · split at h
    · exact absurd h (by norm_num)
    · next hgt => exact not_lt.mp hgt

theorem edgeCmpQsort_isComparator : IsComparator edgeCmpQsort := by
  refine isComparator_of_key WeightedEdge.weight (fun a b => ?_) fun a b => ?_ <;>
    rw [edgeCmpQsort]
  · split
    · next hlt => simp [hlt]
    · split <;> simp_all
  · split
    · next hlt => simp [hlt.not_gt]
    · split <;> simp_all

/-- A merge sort does what `qsort` promises. -/
theorem mergeSort_isQsort :
    IsQsort edgeCmpQsort fun l => l.mergeSort fun x y => edgeCmpQsort x y ≤ 0 where
  perm l := List.mergeSort_perm l _
  sorted l := by
    refine (List.pairwise_mergeSort (fun x y z hxy hyz => ?_) (fun x y => ?_) l).imp
      of_decide_eq_true
    · exact decide_eq_true (edgeCmpQsort_isComparator.le_trans (of_decide_eq_true hxy)
        (of_decide_eq_true hyz))
    · rw [Bool.or_eq_true, decide_eq_true_iff, decide_eq_true_iff]
      rcases le_or_gt (edgeCmpQsort x y) 0 with hle | hgt
      · exact .inl hle
      · exact .inr ((edgeCmpQsort_isComparator.neg_iff y x).mpr hgt).le

namespace KruskalState

/-- What holds of a state in which the loop has looked at the edges `done`. -/
structure Inv (g : GraphImpl) (done : List WeightedEdge) (st : KruskalState) (root : ℕ → ℕ) :
    Prop where
  unionFind : UnionFind g.vertices st.parent st.rank root
  root_iff : ∀ u ∈ g.vertices, ∀ w ∈ g.vertices,
    root u = root w ↔ Joined id (pairs st.mst.items : Set (ℕ × ℕ)) u w
  card_roots : (roots g.vertices root).card + st.mst.items.length = g.vertices.card
  forest : IsEdgeForest id (pairs st.mst.items : Set (ℕ × ℕ))
  light : Light id g.weightOf g.edgeSet (pairs st.mst.items)
  joined : ∀ e ∈ done, root e.fromVertex = root e.toVertex
  kept : ∀ e ∈ st.mst.items, e ∈ g.kept
  nodup : (st.mst.items.map WeightedEdge.pair).Nodup
  allocator : st.allocator = Allocator.always
  capacity_pos : 0 < st.mst.capacity

variable {done rest : List WeightedEdge} {e : WeightedEdge} {st : KruskalState} {root : ℕ → ℕ}
  {fuel : ℕ}

/-- The next edge is a collected one: an edge of the graph, with its weight. -/
theorem next_kept (hwf : WellFormed g) (hu : Undirected g)
    (hperm : (done ++ e :: rest).Perm g.kept) :
    e ∈ g.kept ∧ (e.pair ∈ g.edgeSet ∧ e.weight = g.weights e.fromVertex e.toVertex) ∧
      e.fromVertex ∈ g.vertices ∧ e.toVertex ∈ g.vertices := by
  have hmem : e ∈ g.kept := hperm.mem_iff.mp (List.mem_append_right _ List.mem_cons_self)
  have hedge := edge_of_mem_kept hwf hmem
  exact ⟨hmem, hedge, hu.mem_left hedge.1, hu.mem_right hedge.1⟩

/-- The next edge is lightest among those that join two classes. -/
theorem Inv.lightest (hwf : WellFormed g) (hu : Undirected g) (h : Inv g done st root)
    (hperm : (done ++ e :: rest).Perm g.kept)
    (hsorted : (done ++ e :: rest).Pairwise fun x y => edgeCmpQsort x y ≤ 0) {p : ℕ × ℕ}
    (hp : p ∈ g.edgeSet) (hcross : ¬ Joined id (pairs st.mst.items : Set (ℕ × ℕ)) p.1 p.2) :
    g.weightOf e.pair ≤ g.weightOf p := by
  have hne : p.1 ≠ p.2 := fun heq => hcross (heq ▸ .refl _ _)
  obtain ⟨e', he', hweight', hpair⟩ := exists_kept hwf hu hp hne
  have hle : e.weight ≤ e'.weight := by
    rcases List.mem_append.mp (hperm.mem_iff.mpr he') with hdone | hrest
    · refine absurd ?_ hcross
      have hsame := h.joined e' hdone
      rcases hpair with hpair | hpair
      · obtain ⟨hfrom, hto⟩ := Prod.mk.inj hpair
        rw [hfrom, hto] at hsame
        exact (h.root_iff _ (hu.mem_left hp) _ (hu.mem_right hp)).mp hsame
      · obtain ⟨hfrom, hto⟩ := Prod.mk.inj hpair
        rw [hfrom, hto] at hsame
        exact (h.root_iff _ (hu.mem_left hp) _ (hu.mem_right hp)).mp hsame.symm
    · rcases List.mem_cons.mp hrest with rfl | hrest
      · exact le_refl _
      · have hpairwise := (List.pairwise_append.mp hsorted).2.1
        exact edgeCmpQsort_le ((List.pairwise_cons.mp hpairwise).1 e' hrest)
  obtain ⟨-, ⟨hedge, hweight⟩, -, -⟩ := next_kept hwf hu hperm
  rw [hweight.trans (hu.weights_eq hedge), hweight'] at hle
  exact WithTop.coe_le_coe.mp hle

theorem Inv.length_lt (hwf : WellFormed g) (h : Inv g done st root) :
    st.mst.items.length ≤ g.vertices.card ∧ g.vertices.card ≤ intMax := by
  have hcount := h.card_roots
  exact ⟨by omega, hwf.card_vertices_le⟩

/-- An edge within one class is passed over. -/
theorem Inv.skip (h : Inv g done st root) (hsame : root e.fromVertex = root e.toVertex)
    {parent : ℕ → ℤ} (hparent : UnionFind g.vertices parent st.rank root) :
    Inv g (done ++ [e]) { st with parent := parent } root := by
  refine ⟨hparent, h.root_iff, h.card_roots, h.forest, h.light, fun e' he' => ?_, h.kept, h.nodup,
    h.allocator, h.capacity_pos⟩
  rcases List.mem_append.mp he' with he' | he'
  · exact h.joined e' he'
  · rw [List.mem_singleton.mp he']
    exact hsame

/-- The lightest edge between two classes is taken. -/
theorem Inv.add (hwf : WellFormed g) (hu : Undirected g) (h : Inv g done st root)
    (hperm : (done ++ e :: rest).Perm g.kept)
    (hsorted : (done ++ e :: rest).Pairwise fun x y => edgeCmpQsort x y ≤ 0)
    (hother : root e.fromVertex ≠ root e.toVertex) {parent rank : ℕ → ℤ} {root' : ℕ → ℕ}
    (hparent : UnionFind g.vertices parent rank root')
    (hmerged : Merged g.vertices root root' e.fromVertex e.toVertex)
    {mst : ArrayList WeightedEdge} (hitems : mst.items = st.mst.items ++ [e])
    (hcap : 0 < mst.capacity) :
    Inv g (done ++ [e]) ⟨parent, rank, mst, .always⟩ root' := by
  obtain ⟨hmem, ⟨hedge, -⟩, hfrom, hto⟩ := next_kept hwf hu hperm
  have hcross : ¬ Joined id (pairs st.mst.items : Set (ℕ × ℕ)) e.pair.1 e.pair.2 := fun hjoined =>
    hother ((h.root_iff _ hfrom _ hto).mpr hjoined)
  have hpairs : pairs mst.items = insert e.pair (pairs st.mst.items) := by
    rw [hitems, pairs_append]
  refine ⟨hparent, fun u hu' w hw' => ?_, ?_, ?_, ?_, fun e' he' => ?_, fun e' he' => ?_, ?_, rfl,
    hcap⟩
  · dsimp only
    rw [hmerged.root_iff, hpairs, Finset.coe_insert, joined_insert_iff, h.root_iff u hu' w hw',
      h.root_iff u hu' _ hfrom, h.root_iff _ hto w hw', h.root_iff u hu' _ hto,
      h.root_iff _ hfrom w hw']
    rfl
  · have hless := hmerged.card_roots
    have hcard := h.card_roots
    dsimp only
    rw [hitems, List.length_append, List.length_singleton]
    omega
  · dsimp only
    rw [hpairs, Finset.coe_insert]
    exact h.forest.insert_edge hcross
  · dsimp only
    rw [hpairs]
    exact h.light.insert_edge (Joined.equivalence _) (fun p hp => .of_mem hp) hedge hcross
      fun p hp hp' => h.lightest hwf hu hperm hsorted hp hp'
  · rcases List.mem_append.mp he' with he' | he'
    · exact (hmerged.root_iff _ _).mpr (.inl (h.joined e' he'))
    · rw [List.mem_singleton.mp he']
      exact (hmerged.root_iff _ _).mpr (.inr (.inl ⟨rfl, rfl⟩))
  · dsimp only at he'
    rw [hitems] at he'
    rcases List.mem_append.mp he' with he' | he'
    · exact h.kept e' he'
    · rw [List.mem_singleton.mp he']
      exact hmem
  · dsimp only
    rw [hitems, List.map_append, List.map_singleton]
    refine List.nodup_append'.mpr ⟨h.nodup, List.nodup_singleton _, ?_⟩
    rw [List.disjoint_singleton]
    exact fun hold => hcross (.of_mem (List.mem_toFinset.mpr hold))

/-- **One turn** of the main loop. -/
theorem Inv.take (hwf : WellFormed g) (hu : Undirected g) (h : Inv g done st root)
    (hperm : (done ++ e :: rest).Perm g.kept)
    (hsorted : (done ++ e :: rest).Pairwise fun x y => edgeCmpQsort x y ≤ 0)
    (hmore : (st.mst.items.length : ℤ) < g.vertexCount - 1) (hfuel : g.vertexCount ≤ fuel) :
    ∃ st' root', st.take fuel e = some st' ∧ Inv g (done ++ [e]) st' root' := by
  obtain ⟨-, -, hfrom, hto⟩ := next_kept hwf hu hperm
  rw [hwf.count] at hfuel hmore
  obtain ⟨-, parent₁, hfind₁, h₁⟩ :=
    ufFind_spec h.unionFind hfrom ((card_above_lt st.rank hfrom).trans_le hfuel)
  obtain ⟨-, parent₂, hfind₂, h₂⟩ := ufFind_spec h₁ hto ((card_above_lt st.rank hto).trans_le hfuel)
  rw [KruskalState.take]
  rw [hfind₁]
  dsimp only
  rw [hfind₂]
  dsimp only
  by_cases hsame : root e.fromVertex = root e.toVertex
  · rw [if_neg (not_not.mpr hsame)]
    exact ⟨_, root, rfl, h.skip hsame h₂⟩
  · have hrootfrom := h₂.root_root _ hfrom
    have hrootto := h₂.root_root _ hto
    obtain ⟨parent', rank', root', hunion, hunionFind, hmerged⟩ :=
      ufUnion_spec h₂ (h₂.root_mem _ hfrom) (h₂.root_mem _ hto) (by rwa [hrootfrom, hrootto]) hfuel
    obtain ⟨-, hmax⟩ := h.length_lt hwf
    obtain ⟨mst, hinsert, hitems, hcap⟩ :=
      ArrayList.append_always h.capacity_pos (by omega) e
    rw [if_pos hsame, hunion]
    dsimp only
    rw [h.allocator, hinsert]
    refine ⟨_, root', rfl, h.add hwf hu hperm hsorted hsame hunionFind ⟨fun u w => ?_, ?_⟩ hitems
      hcap⟩
    · rw [hmerged.root_iff, hrootfrom, hrootto]
    · exact hmerged.card_roots

/-- A state whose classes the edges cannot join any further has a minimum spanning forest. -/
theorem Inv.isMinForest (hwf : WellFormed g) (hu : Undirected g) (h : Inv g done st root)
    (hall : ∀ p ∈ g.edgeSet, root p.1 = root p.2) : IsMinForest g g.edgeSet st.mst.items := by
  have hsub : (pairs st.mst.items : Set (ℕ × ℕ)) ⊆ g.edgeSet := by
    intro p hp
    obtain ⟨e, he, rfl⟩ := List.mem_map.mp (List.mem_toFinset.mp hp)
    exact (edge_of_mem_kept hwf (h.kept e he)).1
  refine ⟨fun e he => (edge_of_mem_kept hwf (h.kept e he)).2, h.nodup,
    h.light.isMinSpanningForest ⟨hsub, h.forest, fun u v => ⟨fun hjoined => hjoined.mono hsub,
      fun hjoined => hjoined.of_edges fun p hp => ?_⟩⟩⟩
  exact (h.root_iff _ (hu.mem_left hp) _ (hu.mem_right hp)).mp (hall p hp)

/-- **The main loop** ends with a minimum spanning forest. -/
theorem loop_spec (hwf : WellFormed g) (hu : Undirected g) (hfuel : g.vertexCount ≤ fuel) :
    ∀ {rest done : List WeightedEdge} {st : KruskalState} {root : ℕ → ℕ}, Inv g done st root →
      (done ++ rest).Perm g.kept →
      (done ++ rest).Pairwise (fun x y => edgeCmpQsort x y ≤ 0) →
      ∃ st', loop g fuel rest st = some st' ∧ IsMinForest g g.edgeSet st'.mst.items := by
  intro rest
  induction rest with
  | nil =>
    intro done st root h hperm _
    rw [List.append_nil] at hperm
    refine ⟨st, rfl, h.isMinForest hwf hu fun p hp => ?_⟩
    by_cases hne : p.1 = p.2
    · rw [hne]
    · obtain ⟨e, he, -, hpair⟩ := exists_kept hwf hu hp hne
      have hsame := h.joined e (hperm.mem_iff.mpr he)
      rcases hpair with rfl | hpair
      · exact hsame
      · obtain ⟨hfrom, hto⟩ := Prod.mk.inj hpair
        rw [hfrom, hto] at hsame
        exact hsame.symm
  | cons e rest ih =>
    intro done st root h hperm hsorted
    rw [loop]
    by_cases hmore : (st.mst.size : ℤ) < g.vertexCount - 1
    · obtain ⟨st', root', htake, h'⟩ := h.take hwf hu hperm hsorted hmore hfuel
      rw [if_pos hmore, htake]
      have hsplit : done ++ e :: rest = done ++ [e] ++ rest := by simp
      rw [hsplit] at hperm hsorted
      exact ih h' hperm hsorted
    · rw [if_neg hmore]
      refine ⟨st, rfl, h.isMinForest hwf hu fun p hp => ?_⟩
      -- one class is left
      have hcard : (roots g.vertices root).card ≤ 1 := by
        have hcount := h.card_roots
        rw [hwf.count] at hmore
        rw [ArrayList.size] at hmore
        omega
      have hroot : ∀ v ∈ g.vertices, root v ∈ roots g.vertices root := fun v hv =>
        Finset.mem_filter.mpr ⟨h.unionFind.root_mem v hv, h.unionFind.root_root v hv⟩
      exact Finset.card_le_one.mp hcard _ (hroot _ (hu.mem_left hp)) _ (hroot _ (hu.mem_right hp))

end KruskalState

/-! ## The function -/

/-- The state in which the main loop is entered. -/
theorem KruskalState.inv_start (g : GraphImpl) {mst : ArrayList WeightedEdge}
    (hnil : mst.items = [])
    (hcap : 0 < mst.capacity) :
    KruskalState.Inv g []
      ⟨fun v => if g.isValidVertex v then v else -1, fun _ => 0, mst, .always⟩ id := by
  have hpairs : pairs mst.items = ∅ := by
    rw [hnil]
    rfl
  have hunion : UnionFind g.vertices (fun v : ℕ => if g.isValidVertex v then (v : ℤ) else -1)
      (fun _ => 0) id := unionFind_start _ fun v hv => by
    rw [isValidVertex_cast.mpr hv, if_pos rfl]
  refine ⟨hunion, fun u _ w _ => ?_, ?_, ?_, ?_, fun e he => absurd he List.not_mem_nil,
    fun e he => ?_, ?_, rfl, hcap⟩
  · dsimp only
    rw [hpairs, Finset.coe_empty]
    constructor
    · intro heq
      rw [id, id] at heq
      rw [heq]
      exact .refl _ _
    · exact fun hjoined => hjoined.of_equivalence eq_equivalence fun p hp =>
        absurd hp (Set.notMem_empty p)
  · dsimp only
    rw [hnil, List.length_nil, Nat.add_zero, roots, Finset.filter_true_of_mem]
    exact fun _ _ => rfl
  · dsimp only
    rw [hpairs, Finset.coe_empty]
    exact isEdgeForest_empty id
  · dsimp only
    rw [hpairs]
    exact light_empty id _ _
  · dsimp only at he
    rw [hnil] at he
    exact absurd he List.not_mem_nil
  · dsimp only
    rw [hnil]
    exact List.nodup_nil

/-- With allocations succeeding the function returns a minimum spanning forest. -/
theorem mstKruskal_spec (hwf : WellFormed g) (hu : Undirected g)
    {qsort : List WeightedEdge → List WeightedEdge} (hqsort : IsQsort edgeCmpQsort qsort)
    (hfit : EdgesFit g) {fuel : ℕ} (hfuel : g.vertexCount ≤ fuel) :
    ∃ mst, g.mstKruskal qsort fuel .always = some (some mst) ∧
      IsMinForest g g.edgeSet mst.items := by
  have hmax : g.vertexCount ≤ intMax := hwf.count ▸ hwf.card_vertices_le
  have hcapacity : ∃ n : ℤ, (if g.vertexCount > 0 then (g.vertexCount : ℤ) else 4) = n ∧ 0 < n ∧
      n ≤ intMax := by
    by_cases hpos : g.vertexCount > 0
    · exact ⟨_, if_pos hpos, by omega, by omega⟩
    · exact ⟨_, if_neg hpos, by norm_num, by decide⟩
  obtain ⟨n, hn, hpos, hle⟩ := hcapacity
  obtain ⟨edges, hcollect, hitems⟩ := collectEdges_always hfit
  have hinv : KruskalState.Inv g [] ⟨_, _, ⟨[], n.toNat, Nat.zero_le _, by omega⟩, .always⟩ id :=
    KruskalState.inv_start g rfl (by
      dsimp only
      omega)
  obtain ⟨st, hloop, hforest⟩ := KruskalState.loop_spec hwf hu hfuel hinv
    (hqsort.perm g.kept) (hqsort.sorted g.kept)
  refine ⟨st.mst, ?_, hforest⟩
  rw [GraphImpl.mstKruskal]
  rw [if_neg (not_not.mpr hu.type), hn, ArrayList.create_always hpos.le hle]
  dsimp only
  rw [hcollect]
  dsimp only
  rw [hitems]
  simp only [Allocator.alloc_always, Bool.not_true, Bool.or_self, Bool.false_eq_true, if_false,
    hloop, Option.map_some]

/-- **Kruskal's algorithm finds a minimum spanning forest** of every undirected graph with finite
weights that calls can build: edges of the graph with their weights, without a cycle, that join what
the edges of the graph join, and no other such set of edges weighs less. -/
theorem mstKruskal_correct (hg : Built g) (hu : Undirected g)
    {qsort : List WeightedEdge → List WeightedEdge} (hqsort : IsQsort edgeCmpQsort qsort)
    (hfit : EdgesFit g) {fuel : ℕ} (hfuel : g.vertexCount ≤ fuel) :
    ∃ mst, g.mstKruskal qsort fuel .always = some (some mst) ∧
      IsMinForest g g.edgeSet mst.items :=
  mstKruskal_spec hg.wellFormed hu hqsort hfit hfuel

/-- A triangle with a tie and a negative weight, and a vertex with a self loop. -/
def triangleCalls : List Call :=
  [.addEdge 0 1 ((-2 : ℚ) : WithTop ℚ), .addEdge 1 2 ((5 : ℚ) : WithTop ℚ),
    .addEdge 0 2 ((5 : ℚ) : WithTop ℚ), .addEdge 4 4 ((1 : ℚ) : WithTop ℚ)]

theorem exists_triangle : ∃ g, build (fun _ => 0) .undirected .adjacencyList .bfs .dijkstra
    .always triangleCalls = some (g, Allocator.always) ∧ Undirected g := by
  have hscope : ∀ c ∈ triangleCalls, c.InScope := by decide
  obtain ⟨g, hbuild, hrepr, -⟩ :=
    build_represents (fun _ => 0) .undirected .adjacencyList .bfs .dijkstra hscope
  exact ⟨g, hbuild, hrepr.undirected (AbstractGraph.ofCalls_type _ _)
    (AbstractGraph.symmetric_ofCalls _ _)⟩

theorem mstKruskal_correct_triangle :
    ∃ g, build (fun _ => 0) .undirected .adjacencyList .bfs .dijkstra .always triangleCalls =
        some (g, Allocator.always) ∧
      ∃ mst, g.mstKruskal (fun l => l.mergeSort fun x y => edgeCmpQsort x y ≤ 0) 4 .always =
          some (some mst) ∧
        IsMinForest g g.edgeSet mst.items := by
  obtain ⟨g, hbuild, hu⟩ := exists_triangle
  have hsize : (build (fun _ => 0) .undirected .adjacencyList .bfs .dijkstra .always
      triangleCalls).map (fun r => (r.1.kept.length, r.1.vertexCount)) = some (3, 4) := by
    decide +kernel
  rw [hbuild] at hsize
  obtain ⟨hlen, hcount⟩ := Prod.mk.inj (Option.some.inj hsize)
  exact ⟨g, hbuild, mstKruskal_correct ⟨_, _, _, _, _, _, _, _, hbuild⟩ hu mergeSort_isQsort
    (hlen.trans_le (by norm_num)) hcount.le⟩

end Graph

end OvaLib
