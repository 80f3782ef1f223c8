import OvaLib.Graph.LoopAttempts

/-!
# Failed allocations in the graph algorithms

`graph_dijkstra_impl`, `graph_mst_prim_impl`, `graph_mst_kruskal_impl`,
`graph_connected_components_impl` and `graph_strongly_connected_components_impl` all report an
allocation that fails while they set up their variables. What their loops allocate for queue
records, edges and components they do without when it fails, and go on: the call still returns 1 or
a list, and what is missing is missing from the answer.

So the answer can be relied on in two cases. Either an allocation of the set-up fails, which all
five functions look for, and the call returns 0 or `NULL`; or none of the allocations that the loops
of this call make fails, and the call does what it does with memory enough. How many these are
depends on the graph (`Algorithm.attempts`); what happens to attempts that the call never makes does
not matter. Kruskal's algorithm asks for its arrays of parents and ranks only after it has collected
the edges, and looks at those two answers, so these belong to the set-up.

## Scope

The condition is not necessary. A failure that is passed over may do no harm: the record that is
missing may be one that would have been out of date when its turn came, or an edge that is in no
minimum spanning tree anyway. Whether it does harm is a question about the answer, so there is no
condition on the attempts alone that is exact; an example after `failures_reported` shows a harmless
one.

## Main results

* `collectEdges_passed` — the collection of the edges, for as many allocations as it makes
* `KruskalState.loop_allocator` — the main loop of Kruskal's algorithm allocates nothing
* `failures_reported` — when a call reports its failures or gives the failure-free answer
* `failures_unreported` — wrong answers of all five functions
-/

namespace OvaLib

namespace Graph

open GraphImpl Allocating

variable {g : GraphImpl} {fuel : ℕ} {a : Allocator}

/-! ## Calls -/

/-- The functions that allocate in their loops, with their arguments. -/
inductive Algorithm
  | dijkstra (startVertex : ℤ)
  | mstPrim (startVertex : ℤ)
  | mstKruskal
  | connectedComponents
  | stronglyConnectedComponents

/-- A call that returns 1 or a list gives the answer of the failure-free run. A call that returns 0
or `NULL` has reported, and one that does not return within the fuel says nothing. -/
def Algorithm.Reports (qsort : List WeightedEdge → List WeightedEdge) (fuel : ℕ) (g : GraphImpl)
    (a : Allocator) : Algorithm → Prop
  | .dijkstra startVertex => ∀ r, g.dijkstra fuel startVertex a = some r → r.status = 1 →
      g.dijkstra fuel startVertex .always = some r
  | .mstPrim startVertex => ∀ mst, g.mstPrim fuel startVertex a = some (some mst) →
      g.mstPrim fuel startVertex .always = some (some mst)
  | .mstKruskal => ∀ mst, g.mstKruskal qsort fuel a = some (some mst) →
      g.mstKruskal qsort fuel .always = some (some mst)
  | .connectedComponents => ∀ components,
      g.connectedComponents fuel a = some (some components) →
      g.connectedComponents fuel .always = some (some components)
  | .stronglyConnectedComponents => ∀ components,
      g.stronglyConnectedComponents fuel a = some (some components) →
      g.stronglyConnectedComponents fuel .always = some (some components)

/-- The allocations of one `edge_vec_push` and of the record before it: two for the record, and one
for an array that is full. -/
def pushAttempts (v : EdgeVec) : ℕ := if v.items.length ≥ v.cap then 3 else 2

/-- The allocations of the edge collection. How often the array grows depends on how many edges
there are, so this follows the run in which all of them succeed. -/
def collectAttempts : EdgeVec → List WeightedEdge → ℕ
  | _, [] => 0
  | v, e :: es => pushAttempts v + collectAttempts ((edgeVecPush v e .always).1.getD v) es

/-- The state in which the edges of the start vertex of Prim's algorithm are pushed. -/
def PrimState.entered (g : GraphImpl) (start : ℕ) (mst : ArrayList WeightedEdge) :
    Option PrimState :=
  (BinaryHeap.create (if g.vertexCount > 0 then g.vertexCount else 4) .always).1.map fun pq =>
    { inMst := Function.update (fun _ => false) start true
      pq := pq
      arena := primArenaInit (if g.vertexCount > 0 then g.vertexCount else 16)
      mst := mst
      allocator := .always }

/-- The edges of the start vertex, and the main loop. -/
def PrimState.runAttempts (g : GraphImpl) (fuel start : ℕ) (st : PrimState) : ℕ :=
  st.pushEdgesAttempts g start +
    loopAttempts (PrimState.step g) (PrimState.turnAttempts g) fuel (st.pushEdges g start)

/-- The attempts that the loops make, once the variables are set up. They are counted along the run
in which none fails, and that is enough: until one fails, the two runs are the same. -/
def Algorithm.attempts (fuel : ℕ) (g : GraphImpl) : Algorithm → ℕ
  | .dijkstra startVertex =>
    if !g.isValidVertex startVertex then 0
    else
      (DijkstraState.init g startVertex.toNat .always).elim 0
        (loopAttempts (DijkstraState.step g) (DijkstraState.turnAttempts g) fuel)
  | .mstPrim startVertex =>
    let start := if g.isValidVertex startVertex then startVertex else g.firstVertex
    if g.type ≠ .undirected ∨ g.vertexCount = 0 ∨ start < 0 then 0
    else
      (ArrayList.create (if g.vertexCount > 0 then g.vertexCount else 4) .always).1.elim 0
        fun mst =>
          (PrimState.entered g start.toNat mst).elim 0 (PrimState.runAttempts g fuel start.toNat)
  | .mstKruskal => if g.type ≠ .undirected then 0 else collectAttempts ⟨[], 0⟩ g.kept
  | .connectedComponents =>
    if g.type ≠ .undirected then 0
    else
      (ComponentsState.init .always).elim 0
        (foldAttemptsM (ComponentsState.turn g fuel) (ComponentsState.turnAttempts g fuel)
          (List.range g.vertexCapacity))
  | .stronglyConnectedComponents =>
    if g.type ≠ .directed then 0
    else
      (tarjanInit .always).elim 0
        (foldAttemptsM (g.tarjanRoot fuel) (tarjanRootAttempts g fuel)
          (List.range g.vertexCapacity))

/-- How many allocations are made before the loops. The numbers are those of the calls of `malloc`
and `calloc` in the set-up of each function, with those inside the lists and queues it creates. -/
def Algorithm.setUp : Algorithm → ℕ
  | .dijkstra _ => 7
  | .mstPrim _ => 7
  | .mstKruskal => 3
  | .connectedComponents => 6
  | .stronglyConnectedComponents => 10

/-- An allocation fails with which a function sets up its variables. Kruskal's algorithm makes the
last two of these after it collected the edges. -/
def Algorithm.SetUpFails (g : GraphImpl) (a : Allocator) (call : Algorithm) : Prop :=
  ¬ a.Grants call.setUp ∨
    call = .mstKruskal ∧ ¬ (g.collectEdges (a.skip Algorithm.mstKruskal.setUp)).2.Grants 2

/-- No failure is passed over: one happens while the variables are set up, where all functions look
for it, or none of the attempts that the loops make fails. What the allocator would answer after the
last attempt of the call does not come in. -/
def Algorithm.NothingPassedOver (fuel : ℕ) (g : GraphImpl) (a : Allocator) (call : Algorithm) :
    Prop :=
  call.SetUpFails g a ∨ (a.skip call.setUp).Grants (call.attempts fuel g)

/-! ## Setting up -/

/-- Where the loops are entered, the variables are those of the failure-free run. -/
theorem dijkstra_setUp {s : ℕ} {st : DijkstraState} (h : DijkstraState.init g s a = some st) :
    SetUp (DijkstraState.init g s) a 7 st := by
  suffices hinit : a.Passed 7 st.allocator ∧
      DijkstraState.init g s .always = some { st with allocator := .always } from
    ⟨hinit.1.1, _, hinit.2, rfl, hinit.1.2 ▸ rfl⟩
  rw [DijkstraState.init] at h ⊢
  cases hvector : createVector a with
  | mk dist a₁ =>
    rw [hvector] at h
    dsimp only at h
    cases dist with
    | false => exact absurd h (by simp)
    | true =>
      rw [Bool.not_true, if_neg Bool.false_ne_true] at h
      split at h
      · exact absurd h (by simp)
      · next pq a₂ hheap =>
        split at h
        · exact absurd h (by simp)
        · next arena a₃ harena =>
          obtain ⟨hpassed, hpq, hnil, hcap⟩ := BinaryHeap.create_passed hheap
          obtain ⟨hchunk, harena'⟩ := PqArena.alloc_init_passed harena
          have hsetup := ((createVector_passed hvector).trans hpassed).trans hchunk
          -- the start vertex needs no growth
          have hroom : pq.putAttempts = 0 := if_neg fun hfull => by
            have hlength := hfull.1
            rw [hnil, List.length_nil] at hlength
            split at hcap <;> omega
          obtain ⟨hput, hfree⟩ := pq.put_granted pqNodeCmp ⟨s, 0⟩ (a := a₃) (by
            rw [hroom]
            exact Allocator.grants_zero _)
          rw [hroom, Allocator.skip_zero] at hput
          rw [hput] at h
          obtain rfl := Option.some.inj h
          refine ⟨hsetup, ?_⟩
          have hvector' : createVector .always = (true, .always) := rfl
          rw [hvector']
          dsimp only
          rw [Bool.not_true, if_neg Bool.false_ne_true, hpq]
          dsimp only
          rw [harena']
          dsimp only
          rw [hfree]

theorem connectedComponents_setUp {st : ComponentsState} (h : ComponentsState.init a = some st) :
    SetUp ComponentsState.init a 6 st := by
  suffices hinit : a.Passed 6 st.allocator ∧
      ComponentsState.init .always = some { st with allocator := .always } from
    ⟨hinit.1.1, _, hinit.2, rfl, hinit.1.2 ▸ rfl⟩
  rw [ComponentsState.init] at h ⊢
  split at h
  · exact absurd h (by simp)
  · next components a₁ hlist =>
    dsimp only at h
    split at h
    · exact absurd h (by simp)
    · next q a₂ hqueue =>
      split at h
      · exact absurd h (by simp)
      · next hvisited =>
        rw [Bool.not_eq_true', Bool.not_eq_false] at hvisited
        obtain rfl := Option.some.inj h
        obtain ⟨hpassed, halways⟩ := ArrayList.create_passed hlist
        obtain ⟨hpassed', rfl⟩ := LinkedQueue.create_passed hqueue
        refine ⟨(hpassed.trans (Allocator.passed_alloc hvisited)).trans hpassed', ?_⟩
        rw [halways]
        rfl

theorem tarjanInit_setUp {st : TarjanState} (h : tarjanInit a = some st) :
    SetUp tarjanInit a 10 st := by
  suffices hinit : a.Passed 10 st.allocator ∧
      tarjanInit .always = some { st with allocator := .always } from
    ⟨hinit.1.1, _, hinit.2, rfl, hinit.1.2 ▸ rfl⟩
  rw [tarjanInit] at h ⊢
  split at h
  · exact absurd h (by simp)
  · next components a₁ hlist =>
    dsimp only at h
    split at h
    · exact absurd h (by simp)
    · next stack a₂ hstack =>
      split at h
      · exact absurd h (by simp)
      · next hall =>
        simp only [Bool.or_eq_true, Bool.not_eq_true', not_or, Bool.not_eq_false] at hall
        obtain rfl := Option.some.inj h
        obtain ⟨hpassed, halways⟩ := ArrayList.create_passed hlist
        obtain ⟨hpassed', halways'⟩ := ArrayStack.create_passed hstack
        refine ⟨(((hpassed.trans (Allocator.passed_alloc hall.1.1)).trans
          (Allocator.passed_alloc hall.1.2)).trans (Allocator.passed_alloc hall.2)).trans
          hpassed', ?_⟩
        rw [halways]
        dsimp only [Allocator.alloc_always]
        rw [halways']
        rfl

/-- What `graph_mst_prim_impl` sets up after its list; the edges of the start vertex belong to what
the loops push, and a failure among them is passed over as in the loop. -/
theorem primInit_setUp {s : ℕ} {mst : ArrayList WeightedEdge} {st : PrimState}
    (h : PrimState.init g s mst a = some st) :
    ∃ st', SetUp (fun _ => PrimState.entered g s mst) a 4 st' ∧ st = st'.pushEdges g s ∧
      ∀ st₀, PrimState.entered g s mst = some st₀ →
        PrimState.init g s mst .always = some (st₀.pushEdges g s) := by
  rw [PrimState.init] at h ⊢
  dsimp only at h
  split at h
  · exact absurd h (by simp)
  · next pq a₁ hheap =>
    split at h
    · exact absurd h (by simp)
    · next hin =>
      rw [Bool.not_eq_true', Bool.not_eq_false] at hin
      obtain ⟨hpassed, hpq, -, -⟩ := BinaryHeap.create_passed hheap
      obtain ⟨hgrants, rfl⟩ := (Allocator.passed_alloc hin).trans hpassed
      obtain rfl := Option.some.inj h
      have hentered : PrimState.entered g s mst = some
          { inMst := Function.update (fun _ => false) s true
            pq := pq
            arena := primArenaInit (if g.vertexCount > 0 then g.vertexCount else 16)
            mst := mst
            allocator := .always } := by
        rw [PrimState.entered, hpq]
        rfl
      refine ⟨_, ⟨hgrants, _, hentered, rfl, rfl⟩, rfl, fun st₀ hst₀ => ?_⟩
      obtain rfl := Option.some.inj (hentered.symm.trans hst₀)
      rw [Allocator.alloc_always]
      dsimp only
      rw [hpq]
      rfl

/-! ## Kruskal's algorithm -/

theorem edgeVecPush_passed (v : EdgeVec) (e : WeightedEdge)
    (h : v.items.length ≥ v.cap → a.outcome 0 = true) :
    edgeVecPush v e a = ((edgeVecPush v e .always).1, a.skip (pushAttempts v - 2)) := by
  simp only [edgeVecPush, pushAttempts]
  by_cases hfull : v.items.length ≥ v.cap
  · have halloc : a.alloc = (true, a.skip 1) := Prod.ext (h hfull) rfl
    rw [if_pos hfull, if_pos hfull, if_pos hfull, halloc, Allocator.alloc_always]
    dsimp only
    by_cases hneg : (!true) = true ∨ (if v.cap > 0 then int32 (v.cap * 2) else 16) < 0
    · rw [if_pos hneg, if_pos hneg]
    · rw [if_neg hneg, if_neg hneg]
  · rw [if_neg hfull, if_neg hfull, if_neg hfull]
    rfl

/-- One edge, for as many allocations as it makes. -/
theorem collectOne_passed (v : EdgeVec) (e : WeightedEdge)
    (h : ∀ k < pushAttempts v, a.outcome k = true) :
    collectOne (v, a) e = (((edgeVecPush v e .always).1.getD v), a.skip (pushAttempts v)) := by
  have htwo : 2 ≤ pushAttempts v := by
    rw [pushAttempts]
    split <;> norm_num
  have hrecord : createWeightedEdge e.fromVertex e.toVertex e.weight a = (some e, a.skip 2) := by
    rw [createWeightedEdge]
    rw [show a.alloc = (true, a.skip 1) from Prod.ext (h 0 (by omega)) rfl]
    dsimp only
    rw [show (a.skip 1).alloc = (true, a.skip 2) from Prod.ext (h 1 (by omega)) rfl]
    rfl
  have hpush := edgeVecPush_passed (a := a.skip 2) v e fun hfull => h 2 (by
    rw [pushAttempts]
    rw [if_pos hfull]
    norm_num)
  rw [Allocator.skip_skip, Nat.add_sub_cancel' htwo] at hpush
  rw [collectOne]
  rw [hrecord]
  dsimp only
  rw [hpush]
  cases (edgeVecPush v e .always).1 <;> rfl

theorem foldl_collectOne_passed : ∀ (es : List WeightedEdge) (v : EdgeVec) {a : Allocator},
    (∀ k < collectAttempts v es, a.outcome k = true) →
    es.foldl collectOne (v, a) =
      ((es.foldl collectOne (v, .always)).1, a.skip (collectAttempts v es)) := by
  intro es
  induction es with
  | nil => exact fun _ _ _ => rfl
  | cons e es ih =>
    intro v a h
    rw [collectAttempts] at h ⊢
    have halways := collectOne_passed (a := .always) v e fun _ _ => rfl
    rw [List.foldl_cons, List.foldl_cons, collectOne_passed v e fun k hk => h k (by omega), halways,
      ih _ fun k hk => by
        rw [Allocator.skip_outcome]
        exact h _ (by omega), Allocator.skip_skip]
    rfl

/-- **The collection of the edges**, when none of the allocations it makes fails: the edges are
those of the failure-free run, and the allocator has been asked as often as was counted. -/
theorem collectEdges_passed (h : ∀ k < collectAttempts ⟨[], 0⟩ g.kept, a.outcome k = true) :
    g.collectEdges a =
      ((g.collectEdges .always).1, a.skip (collectAttempts ⟨[], 0⟩ g.kept)) := by
  rw [collectEdges_eq, collectEdges_eq]
  exact foldl_collectOne_passed _ _ h

namespace KruskalState

/-- The list has room for every edge that the loop takes. -/
theorem take_allocator (fuel : ℕ) {st : KruskalState}
    (hroom : st.mst.items.length < st.mst.capacity)
    (e : WeightedEdge) (b : Allocator) :
    take fuel { st with allocator := b } e =
        (take fuel st e).map (fun st => { st with allocator := b }) ∧
      ∀ st', take fuel st e = some st' → st'.mst.capacity = st.mst.capacity := by
  unfold take
  dsimp only
  cases ufFind fuel st.parent e.fromVertex with
  | none => exact ⟨rfl, fun _ h => absurd h (by simp)⟩
  | some r =>
    obtain ⟨ra, parent⟩ := r
    dsimp only
    cases ufFind fuel parent e.toVertex with
    | none => exact ⟨rfl, fun _ h => absurd h (by simp)⟩
    | some r =>
      obtain ⟨rb, parent⟩ := r
      dsimp only
      split
      · cases ufUnion fuel parent st.rank ra rb with
        | none => exact ⟨rfl, fun _ h => absurd h (by simp)⟩
        | some r =>
          obtain ⟨mst, hinsert, -, hcap⟩ := ArrayList.insert_of_lt hroom e
          dsimp only
          rw [hinsert, hinsert]
          refine ⟨rfl, fun st' hst' => ?_⟩
          rw [← Option.some.inj hst']
          exact hcap
      · refine ⟨rfl, fun st' hst' => ?_⟩
        rw [← Option.some.inj hst']

/-- **The main loop allocates nothing.** The list was created with room for a tree on all vertices.
-/
theorem loop_allocator (fuel : ℕ) : ∀ (es : List WeightedEdge) (st : KruskalState),
    g.vertexCount ≤ st.mst.capacity → ∀ b : Allocator,
      loop g fuel es { st with allocator := b } =
        (loop g fuel es st).map fun st => { st with allocator := b } := by
  intro es
  induction es with
  | nil => exact fun _ _ _ => rfl
  | cons e es ih =>
    intro st hcap b
    rw [loop, loop]
    dsimp only
    split
    · next hmore =>
      rw [ArrayList.size] at hmore
      have hroom : st.mst.items.length < st.mst.capacity := by omega
      obtain ⟨htake, hkeep⟩ := take_allocator fuel hroom e b
      rw [htake]
      cases hst : take fuel st e with
      | none => rfl
      | some st' => exact ih st' (hkeep st' hst ▸ hcap) b
    · rfl

end KruskalState

/-- Kruskal's algorithm. Its set-up is in two parts with the collection between them, so there are
three cases: a failure before, a failure after, or none in the collection. -/
theorem mstKruskal_reports {qsort : List WeightedEdge → List WeightedEdge}
    (h : Algorithm.mstKruskal.NothingPassedOver fuel g a) {mst : ArrayList WeightedEdge}
    (hmst : g.mstKruskal qsort fuel a = some (some mst)) :
    g.mstKruskal qsort fuel .always = some (some mst) := by
  rw [mstKruskal] at hmst ⊢
  split at hmst
  · exact absurd hmst (by simp)
  · next htype =>
    rw [if_neg htype]
    split at hmst
    · exact absurd hmst (by simp)
    · next lst a₁ hcreate =>
      obtain ⟨⟨hgrants, rfl⟩, halways⟩ := ArrayList.create_passed hcreate
      have hcap : g.vertexCount ≤ lst.capacity := by
        have hcapacity := ArrayList.capacity_of_create hcreate
        split at hcapacity <;> omega
      have hparents : (g.collectEdges (a.skip 3)).2.Grants 2 := by
        dsimp only at hmst
        split at hmst
        · exact absurd hmst (by simp)
        · next hboth =>
          rw [Bool.not_eq_true, Bool.or_eq_false_iff, Bool.not_eq_false', Bool.not_eq_false']
            at hboth
          exact ((Allocator.passed_alloc hboth.1).trans (Allocator.passed_alloc hboth.2)).1
      have hcollects : ∀ k < collectAttempts ⟨[], 0⟩ g.kept, (a.skip 3).outcome k = true := by
        rcases h with (hlist | ⟨-, hlate⟩) | hloops
        · exact absurd hgrants hlist
        · exact absurd hparents hlate
        · rw [Algorithm.attempts, if_neg htype] at hloops
          exact hloops
      have hcollect := collectEdges_passed (g := g) (a := a.skip 3) hcollects
      have hcollect' := collectEdges_passed (g := g) (a := .always) fun _ _ => rfl
      rw [hcollect] at hmst
      rw [halways]
      dsimp only
      rw [hcollect', Allocator.skip_always]
      dsimp only at hmst ⊢
      split at hmst
      · exact absurd hmst (by simp)
      · have hloop := KruskalState.loop_allocator fuel (qsort (g.collectEdges .always).1.items)
          ⟨fun v => if g.isValidVertex v then v else -1, fun _ => 0, lst, .always⟩ hcap
        rw [hloop, Option.map_map] at hmst
        exact hmst

/-! ## The other functions -/

theorem dijkstra_reports {startVertex : ℤ}
    (h : (Algorithm.dijkstra startVertex).NothingPassedOver fuel g a) {r : PathResult}
    (hr : g.dijkstra fuel startVertex a = some r) (hstatus : r.status = 1) :
    g.dijkstra fuel startVertex .always = some r := by
  rw [GraphImpl.dijkstra] at hr ⊢
  split at hr
  · rw [← Option.some.inj hr] at hstatus
    exact absurd hstatus (by decide)
  · next hvalid =>
    cases hinit : DijkstraState.init g startVertex.toNat a with
    | none =>
      rw [hinit] at hr
      rw [← Option.some.inj hr] at hstatus
      exact absurd hstatus (by decide)
    | some st =>
      have hsetup := dijkstra_setUp hinit
      have hloops := h.resolve_left fun hfails =>
        hfails.elim (absurd hsetup.1) fun hkruskal => absurd hkruskal.1 (by simp)
      rw [Algorithm.attempts, if_neg hvalid] at hloops
      obtain ⟨st₀, hinit₀, hview⟩ := hsetup.same_view (DijkstraState.attempts_loop g fuel) hloops
        (fun st => (⟨1, some ⟨g.vertexCapacity, st.dist⟩⟩ : PathResult)) fun _ _ => rfl
      rw [if_neg hvalid, hinit₀]
      rw [hinit] at hr
      exact hview.symm.trans hr

theorem PrimState.attempts_run (g : GraphImpl) (fuel start : ℕ) (st : PrimState)
    (h : Unfailing st) : Attempts (fun st => (st.pushEdges g start).loop g fuel) st
      (st.runAttempts g fuel start) :=
  (attempts_pushEdges g st start h).andThen
    (attempts_loop g fuel _ ((attempts_pushEdges g st start h).unfailing h))

theorem mstPrim_reports {startVertex : ℤ}
    (h : (Algorithm.mstPrim startVertex).NothingPassedOver fuel g a) {mst : ArrayList WeightedEdge}
    (hmst : g.mstPrim fuel startVertex a = some (some mst)) :
    g.mstPrim fuel startVertex .always = some (some mst) := by
  rw [mstPrim] at hmst ⊢
  split at hmst
  · exact absurd hmst (by simp)
  · next htype =>
    rw [if_neg htype]
    split at hmst
    · exact absurd hmst (by simp)
    · next lst a₁ hcreate =>
      obtain ⟨⟨hgrants, rfl⟩, halways⟩ := ArrayList.create_passed hcreate
      rw [halways]
      rw [Algorithm.NothingPassedOver, Algorithm.attempts, halways] at h
      dsimp only at h hmst ⊢
      generalize (if g.isValidVertex startVertex then startVertex else g.firstVertex) = start
        at h hmst ⊢
      by_cases hempty : g.vertexCount = 0
      · rwa [if_pos hempty] at hmst ⊢
      · by_cases hneg : start < 0
        · rwa [if_neg hempty, if_pos hneg] at hmst ⊢
        · rw [if_neg hempty, if_neg hneg] at hmst ⊢
          cases hinit : PrimState.init g start.toNat lst (a.skip 3) with
          | none =>
            rw [hinit] at hmst
            exact absurd hmst (by simp)
          | some st =>
            obtain ⟨st', hsetup, rfl, hentered⟩ := primInit_setUp hinit
            have hloops := h.resolve_left fun hfails => hfails.elim
              (absurd (Allocator.grants_add hgrants hsetup.1))
              fun hkruskal => absurd hkruskal.1 (by simp)
            rw [if_neg fun hcases => hcases.elim htype fun hcases => hcases.elim hempty hneg]
              at hloops
            obtain ⟨st₀, hst₀, hview⟩ := hsetup.same_view
              (PrimState.attempts_run g fuel start.toNat) hloops (fun st => some st.mst)
              fun _ _ => rfl
            rw [hentered st₀ hst₀]
            rw [hinit] at hmst
            exact hview.symm.trans hmst

theorem connectedComponents_eq (htype : g.type = .undirected) {st : ComponentsState}
    (hinit : ComponentsState.init a = some st) : g.connectedComponents fuel a =
      ((List.range g.vertexCapacity).foldlM (ComponentsState.turn g fuel) st).map
        fun st => some st.components := by
  rw [GraphImpl.connectedComponents]
  rw [if_neg (not_not.mpr htype), hinit]
  dsimp only
  cases (List.range g.vertexCapacity).foldlM (ComponentsState.turn g fuel) st <;> rfl

theorem connectedComponents_reports (h : Algorithm.connectedComponents.NothingPassedOver fuel g a)
    {components : ArrayList (ArrayList (Option ℕ))}
    (hr : g.connectedComponents fuel a = some (some components)) :
    g.connectedComponents fuel .always = some (some components) := by
  by_cases htype : g.type = .undirected
  · cases hinit : ComponentsState.init a with
    | none =>
      rw [GraphImpl.connectedComponents, if_neg (not_not.mpr htype), hinit] at hr
      exact absurd hr (by simp)
    | some st =>
      have hsetup := connectedComponents_setUp hinit
      have hloops := h.resolve_left fun hfails =>
        hfails.elim (absurd hsetup.1) fun hkruskal => absurd hkruskal.1 (by simp)
      rw [Algorithm.attempts, if_neg (not_not.mpr htype)] at hloops
      obtain ⟨st₀, hinit₀, hview⟩ := hsetup.same_view
        (ComponentsState.attempts_turns g fuel (List.range g.vertexCapacity)) hloops
        (fun st => some st.components) fun _ _ => rfl
      rw [connectedComponents_eq htype hinit] at hr
      rw [connectedComponents_eq htype hinit₀]
      exact hview.symm.trans hr
  · rw [GraphImpl.connectedComponents, if_pos htype] at hr
    exact absurd hr (by simp)

theorem stronglyConnectedComponents_eq (htype : g.type = .directed) {st : TarjanState}
    (hinit : tarjanInit a = some st) : g.stronglyConnectedComponents fuel a =
      ((List.range g.vertexCapacity).foldlM (g.tarjanRoot fuel) st).map
        fun st => some st.outComponents := by
  rw [GraphImpl.stronglyConnectedComponents]
  rw [if_neg (not_not.mpr htype), hinit]
  dsimp only
  cases (List.range g.vertexCapacity).foldlM (g.tarjanRoot fuel) st <;> rfl

theorem stronglyConnectedComponents_reports
    (h : Algorithm.stronglyConnectedComponents.NothingPassedOver fuel g a)
    {components : ArrayList (ArrayList (Option ℕ))}
    (hr : g.stronglyConnectedComponents fuel a = some (some components)) :
    g.stronglyConnectedComponents fuel .always = some (some components) := by
  by_cases htype : g.type = .directed
  · cases hinit : tarjanInit a with
    | none =>
      rw [GraphImpl.stronglyConnectedComponents, if_neg (not_not.mpr htype), hinit] at hr
      exact absurd hr (by simp)
    | some st =>
      have hsetup := tarjanInit_setUp hinit
      have hloops := h.resolve_left fun hfails =>
        hfails.elim (absurd hsetup.1) fun hkruskal => absurd hkruskal.1 (by simp)
      rw [Algorithm.attempts, if_neg (not_not.mpr htype)] at hloops
      obtain ⟨st₀, hinit₀, hview⟩ := hsetup.same_view
        (attempts_tarjanRoots g fuel (List.range g.vertexCapacity)) hloops
        (fun st => some st.outComponents) fun _ _ => rfl
      rw [stronglyConnectedComponents_eq htype hinit] at hr
      rw [stronglyConnectedComponents_eq htype hinit₀]
      exact hview.symm.trans hr
  · rw [GraphImpl.stronglyConnectedComponents, if_pos htype] at hr
    exact absurd hr (by simp)

/-- **When failures are reported**: every call that passes over no failure returns 0 or `NULL`, or
gives the answer of the failure-free run. -/
theorem failures_reported (qsort : List WeightedEdge → List WeightedEdge) (fuel : ℕ) (g : GraphImpl)
    (a : Allocator) (call : Algorithm) (h : call.NothingPassedOver fuel g a) :
    call.Reports qsort fuel g a := by
  cases call with
  | dijkstra startVertex => exact fun r hr hstatus => dijkstra_reports h hr hstatus
  | mstPrim startVertex => exact fun mst hmst => mstPrim_reports h hmst
  | mstKruskal => exact fun mst hmst => mstKruskal_reports h hmst
  | connectedComponents => exact fun components hr => connectedComponents_reports h hr
  | stronglyConnectedComponents =>
    exact fun components hr => stronglyConnectedComponents_reports h hr

/-- The components of a triangle and one more vertex take eight allocations after the set-up; that
all later ones would fail makes no difference, and the call returns its list. -/
theorem failures_reported_triangle :
    ∃ g a', build (fun _ => 0) .undirected .adjacencyList .bfs .dijkstra .always triangleCalls =
        some (g, a') ∧ Algorithm.connectedComponents.attempts 4 g = 8 ∧
      (∃ components, g.connectedComponents 4 ⟨fun n => n < 14⟩ = some (some components)) ∧
      Algorithm.connectedComponents.Reports id 4 g ⟨fun n => n < 14⟩ := by
  obtain ⟨⟨g, a'⟩, hbuild, hrun⟩ := Option.map_eq_some_iff.mp
    (show (build (fun _ => 0) .undirected .adjacencyList .bfs .dijkstra .always triangleCalls).map
      (fun r => (Algorithm.connectedComponents.attempts 4 r.1,
        (r.1.connectedComponents 4 ⟨fun n => n < 14⟩).map Option.isSome)) =
      some (8, some true) by decide +kernel)
  obtain ⟨hattempts, hsome⟩ := Prod.mk.inj hrun
  obtain ⟨o, ho, hlist⟩ := Option.map_eq_some_iff.mp hsome
  obtain ⟨components, rfl⟩ := Option.isSome_iff_exists.mp hlist
  refine ⟨g, a', hbuild, hattempts, ⟨components, ho⟩, failures_reported id 4 g ⟨fun n => n < 14⟩
    .connectedComponents (.inr ?_)⟩
  rw [hattempts]
  exact fun k hk => decide_eq_true (show k + 6 < 14 by omega)

-- The edge that closes the triangle is not missed when there is no memory for its record: the
-- condition is sufficient and not necessary.
example :
    (build (fun _ => 0) .undirected .adjacencyList .bfs .dijkstra .always triangleCalls).map
      (fun r => (r.1.mstKruskal id 4 ⟨fun n => n ≠ 8⟩).map (Option.map fun l =>
        l.items.map fun e => (e.fromVertex, e.toVertex))) =
    (build (fun _ => 0) .undirected .adjacencyList .bfs .dijkstra .always triangleCalls).map
      (fun r => (r.1.mstKruskal id 4 .always).map (Option.map fun l =>
        l.items.map fun e => (e.fromVertex, e.toVertex))) := by
  decide +kernel

/-- The graph of one edge that calls build. -/
def oneEdge (type : GraphType) : Option (GraphImpl × Allocator) :=
  build (fun _ => 0) type .adjacencyList .bfs .dijkstra .always [.addEdge 0 1 1]

/-- A graph on which two answers can be told apart by a number that is read off them. The runs are
evaluated, so the graphs are small. -/
theorem exists_not_reports {β : Type*} {graph : Option (GraphImpl × Allocator)}
    (run : GraphImpl → Allocator → Option (Option β)) (view : β → ℕ) {x y : ℕ}
    (hrun : graph.map (fun r => ((run r.1 a).map (Option.map view),
      (run r.1 .always).map (Option.map view))) = some (some (some x), some (some y)))
    (hne : x ≠ y) :
    ∃ g a', graph = some (g, a') ∧
      ¬ ∀ r, run g a = some (some r) → run g .always = some (some r) := by
  obtain ⟨⟨g, a'⟩, hgraph, hrun⟩ := Option.map_eq_some_iff.mp hrun
  obtain ⟨hfailing, hfree⟩ := Prod.mk.inj hrun
  obtain ⟨o, ho, hx⟩ := Option.map_eq_some_iff.mp hfailing
  obtain ⟨r, rfl, rfl⟩ := Option.map_eq_some_iff.mp hx
  refine ⟨g, a', hgraph, fun h => hne ?_⟩
  rw [h r ho] at hfree
  exact Option.some.inj (Option.some.inj hfree)

/-- A directed graph on which the sixth queue record that is there at once does not find memory: the
heap has to grow for it. -/
def starCalls : List Call :=
  [.addEdge 0 1 100, .addEdge 0 2 100, .addEdge 0 3 100, .addEdge 0 4 1, .addEdge 4 1 50,
    .addEdge 4 2 50, .addEdge 4 3 10, .addEdge 3 1 1]

/-- How many vertices are on the lists of components. -/
def listedVertices (components : ArrayList (ArrayList (Option ℕ))) : ℕ :=
  (components.items.map fun c => c.items.length).sum

/-- One failed allocation, and a wrong answer: a distance of 51 that is 12, spanning trees without
their edge, a component without its vertex, and one strong component that is two. -/
theorem failures_unreported :
    (∃ g a', build (fun _ => 0) .directed .adjacencyList .bfs .dijkstra .always starCalls =
        some (g, a') ∧ ¬ (Algorithm.dijkstra 0).Reports id 30 g ⟨fun n => n ≠ 7⟩) ∧
      (∃ g a', oneEdge .undirected = some (g, a') ∧
        ¬ (Algorithm.mstPrim 0).Reports id 3 g ⟨fun n => n ≠ 8⟩) ∧
      (∃ g a', oneEdge .undirected = some (g, a') ∧
        ¬ Algorithm.mstKruskal.Reports id 3 g ⟨fun n => n ≠ 3⟩) ∧
      (∃ g a', oneEdge .undirected = some (g, a') ∧
        ¬ Algorithm.connectedComponents.Reports id 3 g ⟨fun n => n ≠ 9⟩) ∧
      ∃ g a', oneEdge .directed = some (g, a') ∧
        ¬ Algorithm.stronglyConnectedComponents.Reports id 3 g ⟨fun n => n ≠ 10⟩ := by
  refine ⟨?_, ?_, ?_, ?_, ?_⟩
  · obtain ⟨⟨g, a'⟩, hbuild, hrun⟩ := Option.map_eq_some_iff.mp
      (show (build (fun _ => 0) .directed .adjacencyList .bfs .dijkstra .always starCalls).map
        (fun r => ((r.1.dijkstra 30 0 ⟨fun n => n ≠ 7⟩).map fun p =>
            (p.status, p.outDist.map fun d => d.data 1),
          (r.1.dijkstra 30 0 .always).map fun p => p.outDist.map fun d => d.data 1)) =
        some (some (1, some 51), some (some 12)) by decide +kernel)
    obtain ⟨hfailing, hfree⟩ := Prod.mk.inj hrun
    obtain ⟨r, hr, hview⟩ := Option.map_eq_some_iff.mp hfailing
    obtain ⟨hstatus, hdist⟩ := Prod.mk.inj hview
    refine ⟨g, a', hbuild, fun h => ?_⟩
    dsimp only at hfree
    rw [h r hr hstatus, Option.map_some, hdist] at hfree
    exact absurd (Option.some.inj (Option.some.inj hfree)) (by decide)
  · exact exists_not_reports (fun g => g.mstPrim 3 0) (fun l => l.items.length)
      (x := 0) (y := 1) (by decide +kernel) (by decide)
  · exact exists_not_reports (fun g => g.mstKruskal id 3) (fun l => l.items.length)
      (x := 0) (y := 1) (by decide +kernel) (by decide)
  · exact exists_not_reports (fun g => g.connectedComponents 3) listedVertices
      (x := 1) (y := 2) (by decide +kernel) (by decide)
  · exact exists_not_reports (fun g => g.stronglyConnectedComponents 3)
      (fun l => l.items.length) (x := 1) (y := 2) (by decide +kernel) (by decide)

end Graph

end OvaLib
