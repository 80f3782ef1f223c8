import OvaLib.Graph.ShortestPaths

/-!
# Dijkstra's algorithm

The queue may hold several nodes for a vertex, and a vertex can come back after its edges were
relaxed. So nothing is said about vertices being finished. What holds at every turn is that a
vertex whose edges might still improve a label has a node with its present label in the queue; and
without negative cycles a label improves only finitely often, each time for one node put.

## Negative edges

The textbook proof relaxes each vertex once, and needs weights that are not negative. This code puts
a vertex back whenever its label improves, so it is a label-correcting algorithm with a priority
queue for its order. It is right for every graph without a negative cycle in reach, and only how
long it takes depends on the signs of the weights.

## How the proof goes

Partial correctness is the invariant `Inv`. Its part about edges says, of each edge that improves a
label, that the tail has a node with its present label in the queue, or is the vertex whose edges
are being looked at. When the queue is empty there is no such edge, and labels that are weights of
walks, with no edge to improve them, are the distances.

For termination, the labels are weights of paths without repetition, of which there are finitely
many; `Candidates` collects them. The measure counts twice the candidates below each label, and once
the nodes of the queue. An improvement takes away two and adds one node, a turn takes away the node
it begins with.

## The room in the queue

`binary_heap_put` refuses a node when the heap holds `INT_MAX` of them, and nothing in the loop
looks at that. `QueueHasRoom` says of a call that this never happens. It cannot be dropped, as
another module shows with a graph of fewer than `2 ^ 18` vertices. Three conditions on the graph
alone are given under which it holds: no vertex has more than one edge out, the walks without
repetition have few weights, or the weights are integers that are small for the number of vertices.

## Main results

* `DijkstraState.loop_relaxed` — where the loop ends, no edge improves a label
* `DijkstraState.loop_terminates` — without negative cycles in reach it does end
* `dijkstra_correct` — status 1 and the distances
-/

namespace OvaLib

namespace Graph

open Foundation

/-! ## Putting nodes into the queue

A turn that finds the queue full is different from all others, so whether there is room is said
first, of one loop over edges and of one turn. -/

namespace DijkstraState

@[simp] theorem push_dist (st : DijkstraState) (node : PqNode) : (st.push node).dist = st.dist := by
  rw [push]
  split <;> rfl

theorem relaxEdge_dist (v : ℕ) (st : DijkstraState) (e : ℕ × WithTop ℚ) :
    (relaxEdge v st e).dist = relax st.dist v e.1 e.2 := by
  unfold relaxEdge relax
  dsimp only
  split
  · rw [push_dist]
    rfl
  · rfl

/-- The edges `es` of `v`, looked at from a state on, never put a node into a full queue. -/
def RoomFor (v : ℕ) : List (ℕ × WithTop ℚ) → DijkstraState → Prop
  | [], _ => True
  | e :: es, st =>
    (st.dist v + e.2 < st.dist e.1 → st.pq.data.length < intMax) ∧ RoomFor v es (relaxEdge v st e)

/-- The turn of the main loop that starts in a state never puts a node into a full queue. -/
def TurnHasRoom (g : GraphImpl) (st : DijkstraState) : Prop :=
  match st.pq.pop pqNodeCmp with
  | (none, _) => True
  | (some cur, pq) =>
    cur.dist > st.dist cur.vertex ∨ RoomFor cur.vertex (g.outEdges cur.vertex) { st with pq := pq }

/-! ## The invariant

The arguments after the graph are the start vertex, and the vertex and edges that the present turn
has still to look at. Between two turns there are none. -/

variable {g : GraphImpl} {s : ℕ}

/-- What holds of a state with the edges `es` of `v` still to be looked at. -/
structure Inv (g : GraphImpl) (s v : ℕ) (es : List (ℕ × WithTop ℚ)) (st : DijkstraState) :
    Prop where
  allocator : st.allocator = Allocator.always
  /-- A heap of capacity 0 would never grow. -/
  capacity_pos : 0 < st.pq.capacity
  mem : ∀ node ∈ st.pq.data, node.vertex ∈ g.vertices
  /-- Every label is the weight of a walk, and that of the start is at most zero. -/
  labels : Labels g.weights s st.dist
  /-- An edge that improves a label starts at a vertex with its present label in the queue, or is
  among those still to be looked at. -/
  covered : Covered g.weights (fun u x => (⟨u, x⟩ : PqNode) ∈ st.pq.data) st.dist v es

/-- With allocations succeeding the node is in the queue afterwards. -/
theorem push_always {st : DijkstraState} (halloc : st.allocator = Allocator.always)
    (hpos : 0 < st.pq.capacity) (hsize : st.pq.data.length < intMax) (node : PqNode) :
    (st.push node).allocator = Allocator.always ∧ 0 < (st.push node).pq.capacity ∧
      (st.push node).pq.data.Perm (node :: st.pq.data) := by
  obtain ⟨arena, harena⟩ := st.arena.alloc_always
  obtain ⟨pq, hput, hperm, hcap⟩ := BinaryHeap.put_always pqNodeCmp hpos hsize node
  rw [push]
  rw [halloc, harena]
  dsimp only
  rw [hput]
  exact ⟨rfl, hcap, hperm⟩

/-- One edge out of `v` that improves a label: the head is queued. -/
theorem relaxEdge_of_lt {v : ℕ} {st : DijkstraState} {e : ℕ × WithTop ℚ}
    (halloc : st.allocator = Allocator.always) (hpos : 0 < st.pq.capacity)
    (hsize : st.pq.data.length < intMax) (hlt : st.dist v + e.2 < st.dist e.1) :
    (relaxEdge v st e).allocator = Allocator.always ∧ 0 < (relaxEdge v st e).pq.capacity ∧
      (relaxEdge v st e).pq.data.Perm (⟨e.1, st.dist v + e.2⟩ :: st.pq.data) := by
  unfold relaxEdge
  dsimp only
  rw [if_pos hlt]
  exact @push_always (st.setDist _ _) halloc hpos hsize _

theorem relaxEdge_of_not_lt {v : ℕ} {st : DijkstraState} {e : ℕ × WithTop ℚ}
    (hlt : ¬ st.dist v + e.2 < st.dist e.1) : relaxEdge v st e = st := if_neg hlt

/-- An edge of the loop is an edge of the graph. -/
theorem weights_of_mem (h : WellFormed g) {v : ℕ} (hv : v ∈ g.vertices) {e : ℕ × WithTop ℚ}
    (he : e ∈ g.outEdges v) (z : ℚ) (hz : e.2 = z) : g.weights v e.1 = z :=
  (mem_outEdges h hv z).mp (by rw [← hz]; exact he)

theorem Inv.relaxEdge (h : WellFormed g) {v : ℕ} (hv : v ∈ g.vertices) {e : ℕ × WithTop ℚ}
    {es : List (ℕ × WithTop ℚ)} {st : DijkstraState} (hinv : Inv g s v (e :: es) st)
    (he : e ∈ g.outEdges v) (hsize : st.dist v + e.2 < st.dist e.1 → st.pq.data.length < intMax) :
    Inv g s v es (DijkstraState.relaxEdge v st e) := by
  have hreal := weights_of_mem h hv he
  have hlabels := hinv.labels.relax hreal
  rw [← relaxEdge_dist] at hlabels
  by_cases hlt : st.dist v + e.2 < st.dist e.1
  · obtain ⟨halloc, hpos, hperm⟩ := relaxEdge_of_lt hinv.allocator hinv.capacity_pos (hsize hlt) hlt
    refine ⟨halloc, hpos, fun node hnode => ?_, hlabels, ?_⟩
    · rcases List.mem_cons.mp (hperm.mem_iff.mp hnode) with rfl | hnode
      · obtain ⟨x, hx⟩ := WithTop.ne_top_iff_exists.mp (ne_top_of_lt hlt)
        obtain ⟨y, z, -, hz, -⟩ := exists_of_add_eq hx.symm
        exact (GraphImpl.mem_of_weights_ne_top (g := g) (u := v) (v := e.1) (by
          rw [hreal z hz]
          exact WithTop.coe_ne_top)).2
      · exact hinv.mem node hnode
    · rw [relaxEdge_dist]
      refine hinv.covered.step (fun u x hq => ?_) fun _ => ?_
      · exact hperm.mem_iff.mpr (List.mem_cons_of_mem _ hq)
      · exact hperm.mem_iff.mpr List.mem_cons_self
  · have hcovered := hinv.covered.step
      (fun u x (hq : (⟨u, x⟩ : PqNode) ∈ st.pq.data) => hq) (fun hlt' => absurd hlt' hlt)
    rw [relaxEdge_of_not_lt hlt]
    rw [relax_of_not_lt hlt] at hcovered
    exact ⟨hinv.allocator, hinv.capacity_pos, hinv.mem, hinv.labels, hcovered⟩

theorem Inv.foldl (h : WellFormed g) {v : ℕ} (hv : v ∈ g.vertices) :
    ∀ {es : List (ℕ × WithTop ℚ)} {st : DijkstraState}, Inv g s v es st →
      (∀ e ∈ es, e ∈ g.outEdges v) → RoomFor v es st →
      Inv g s v [] (es.foldl (DijkstraState.relaxEdge v) st) := by
  intro es
  induction es with
  | nil => exact fun hinv _ _ => hinv
  | cons e es ih =>
    intro st hinv hes hroom
    exact ih (hinv.relaxEdge h hv (hes e List.mem_cons_self) hroom.1)
      (fun e' he' => hes e' (List.mem_cons_of_mem _ he')) hroom.2

/-! ## One turn

A node that is out of date is dropped, and the invariant holds because its vertex has another one.
-/

/-- The states the loop goes through. -/
def after (g : GraphImpl) (st : DijkstraState) : ℕ → Option DijkstraState
  | 0 => some st
  | n + 1 =>
    match st.step g with
    | none => none
    | some st => after g st n

/-- What a turn does: it takes a node from the queue, and looks at the edges of its vertex unless
the node is out of date. -/
theorem step_cases (g : GraphImpl) (st : DijkstraState) :
    (st.pq.data = [] ∧ st.step g = none) ∨
    ∃ cur pq, (cur :: pq.data).Perm st.pq.data ∧ pq.capacity = st.pq.capacity ∧
      ((st.dist cur.vertex < cur.dist ∧ st.step g = some { st with pq := pq }) ∨
        (TurnHasRoom g st → RoomFor cur.vertex (g.outEdges cur.vertex) { st with pq := pq }) ∧
          st.step g =
            some ((g.outEdges cur.vertex).foldl (relaxEdge cur.vertex) { st with pq := pq })) := by
  by_cases hnil : st.pq.data = []
  · left
    refine ⟨hnil, ?_⟩
    rw [step]
    rw [BinaryHeap.pop_nil pqNodeCmp hnil]
  · right
    obtain ⟨cur, pq, hpop, hperm, hcap⟩ := BinaryHeap.pop_spec pqNodeCmp hnil
    refine ⟨cur, pq, hperm, hcap, ?_⟩
    rw [step, TurnHasRoom]
    rw [hpop]
    dsimp only
    by_cases hstale : cur.dist > st.dist cur.vertex
    · rw [if_pos hstale]
      exact Or.inl ⟨hstale, rfl⟩
    · rw [if_neg hstale]
      exact Or.inr ⟨fun hroom => hroom.resolve_left hstale, rfl⟩

/-- A turn has room when there is room whatever node it takes out. -/
theorem turnHasRoom_of {st : DijkstraState}
    (h : ∀ cur (pq : BinaryHeap PqNode), (cur :: pq.data).Perm st.pq.data →
      pq.capacity = st.pq.capacity →
      RoomFor cur.vertex (g.outEdges cur.vertex) { st with pq := pq }) : TurnHasRoom g st := by
  by_cases hnil : st.pq.data = []
  · rw [TurnHasRoom, BinaryHeap.pop_nil pqNodeCmp hnil]
    trivial
  · obtain ⟨cur, pq, hpop, hperm, hcap⟩ := BinaryHeap.pop_spec pqNodeCmp hnil
    rw [TurnHasRoom, hpop]
    exact .inr (h cur pq hperm hcap)

/-- The node of a turn that is up to date is taken out, and its edges are to be looked at. -/
theorem Inv.popped (h : WellFormed g) {v' : ℕ} {st : DijkstraState} (hinv : Inv g s v' [] st)
    {cur : PqNode} {pq : BinaryHeap PqNode} (hperm : (cur :: pq.data).Perm st.pq.data)
    (hcap : pq.capacity = st.pq.capacity) :
    Inv g s cur.vertex (g.outEdges cur.vertex) { st with pq := pq } := by
  have hv : cur.vertex ∈ g.vertices := hinv.mem cur (hperm.mem_iff.mp List.mem_cons_self)
  refine ⟨hinv.allocator, hcap ▸ hinv.capacity_pos, fun node hnode =>
    hinv.mem node (hperm.mem_iff.mp (List.mem_cons_of_mem _ hnode)), hinv.labels, ?_⟩
  refine hinv.covered.pop (fun t c hc => (mem_outEdges h hv c).mpr hc) fun u x hq => ?_
  exact (List.mem_cons.mp (hperm.mem_iff.mpr hq)).symm.imp_right fun heq =>
    congrArg PqNode.vertex heq

/-- A turn keeps the invariant. -/
theorem Inv.step (h : WellFormed g) {v' : ℕ} {st st' : DijkstraState} (hinv : Inv g s v' [] st)
    (hstep : st.step g = some st') (hroom : TurnHasRoom g st) : ∃ v, Inv g s v [] st' := by
  rcases step_cases g st with ⟨-, hnone⟩ | ⟨cur, pq, hperm, hcap, hcases⟩
  · rw [hnone] at hstep
    exact absurd hstep (by simp)
  have hkeep : ∀ node, node ∈ st.pq.data → node ∈ pq.data ∨ node = cur := by
    intro node hnode
    exact (List.mem_cons.mp (hperm.mem_iff.mpr hnode)).symm
  have hmem : ∀ node ∈ pq.data, node.vertex ∈ g.vertices := fun node hnode =>
    hinv.mem node (hperm.mem_iff.mp (List.mem_cons_of_mem _ hnode))
  rcases hcases with ⟨hstale, hsome⟩ | ⟨hturn, hsome⟩
  · obtain rfl := Option.some.inj (hsome.symm.trans hstep)
    refine ⟨v', hinv.allocator, hcap ▸ hinv.capacity_pos, hmem, hinv.labels, ?_⟩
    refine hinv.covered.drop fun u hq => ?_
    refine (hkeep _ hq).resolve_right fun heq => ?_
    rw [← heq] at hstale
    exact lt_irrefl _ hstale
  · obtain rfl := Option.some.inj (hsome.symm.trans hstep)
    have hv : cur.vertex ∈ g.vertices := hinv.mem cur (hperm.mem_iff.mp List.mem_cons_self)
    exact ⟨cur.vertex, Inv.foldl h hv (hinv.popped h hperm hcap) (fun e he => he) (hturn hroom)⟩

/-! ## The loop

Where the loop ends, whatever the fuel. That it ends is the next section. -/

/-- No put on the way finds the queue full: it holds less than `INT_MAX` nodes whenever one more is
put into it. -/
def Roomy (g : GraphImpl) (st : DijkstraState) : Prop :=
  ∀ n st', st.after g n = some st' → TurnHasRoom g st'

theorem Roomy.step {st st' : DijkstraState} (h : Roomy g st) (hstep : st.step g = some st') :
    Roomy g st' := by
  intro n st'' hst''
  refine h (n + 1) st'' ?_
  rw [after, hstep]
  exact hst''

/-- Where the loop ends, no edge improves a label. -/
theorem loop_relaxed (h : WellFormed g) : ∀ {fuel v : ℕ} {st fin : DijkstraState},
    Inv g s v [] st → Roomy g st → st.loop g fuel = some fin →
      Labels g.weights s fin.dist ∧ ∀ u, Relaxed g.weights fin.dist u := by
  intro fuel
  induction fuel with
  | zero => exact fun _ _ hloop => absurd hloop (by simp [loop])
  | succ fuel ih =>
    intro v st fin hinv hroom hloop
    rw [loop] at hloop
    cases hstep : st.step g with
    | none =>
      rw [hstep] at hloop
      obtain rfl := Option.some.inj hloop
      rcases step_cases g st with ⟨hnil, -⟩ | ⟨cur, pq, -, -, ⟨-, hsome⟩ | ⟨-, hsome⟩⟩
      · refine ⟨hinv.labels, hinv.covered.relaxed fun u x hq => ?_⟩
        rw [hnil] at hq
        exact List.not_mem_nil hq
      · rw [hstep] at hsome
        exact absurd hsome (by simp)
      · rw [hstep] at hsome
        exact absurd hsome (by simp)
    | some st' =>
      rw [hstep] at hloop
      obtain ⟨v', hinv'⟩ := hinv.step h hstep (hroom 0 st rfl)
      exact ih hinv' (hroom.step hstep) hloop

theorem length_relaxEdge_le (v : ℕ) (st : DijkstraState) (e : ℕ × WithTop ℚ) :
    (relaxEdge v st e).pq.data.length ≤ st.pq.data.length + 1 := by
  rw [relaxEdge, push]
  dsimp only
  split
  · split
    · exact Nat.le_succ _
    · exact BinaryHeap.length_put_le _ _ _ _
  · exact Nat.le_succ _

/-- Where no vertex has more than one edge out, the queue does not grow. -/
theorem roomy_of_length_le_one (hdegree : ∀ u, (g.outEdges u).length ≤ 1) {st : DijkstraState}
    (hsize : st.pq.data.length ≤ intMax) : Roomy g st := by
  -- a turn takes a node out before it looks at the one edge
  have hturn : ∀ {st : DijkstraState} {cur : PqNode} {pq : BinaryHeap PqNode},
      (cur :: pq.data).Perm st.pq.data → st.pq.data.length ≤ intMax →
      RoomFor cur.vertex (g.outEdges cur.vertex) { st with pq := pq } ∧
        ((g.outEdges cur.vertex).foldl (relaxEdge cur.vertex)
          { st with pq := pq }).pq.data.length ≤ intMax := by
    intro st cur pq hperm hsize
    have hlen := hperm.length_eq
    rw [List.length_cons] at hlen
    have hone := hdegree cur.vertex
    rcases hes : g.outEdges cur.vertex with _ | ⟨e, es⟩
    · exact ⟨trivial, show pq.data.length ≤ intMax by omega⟩
    · rw [hes, List.length_cons] at hone
      obtain rfl : es = [] := List.length_eq_zero_iff.mp (by omega)
      have hle := length_relaxEdge_le cur.vertex { st with pq := pq } e
      dsimp only at hle
      exact ⟨⟨fun _ => show pq.data.length < intMax by omega, trivial⟩,
        show (relaxEdge cur.vertex { st with pq := pq } e).pq.data.length ≤ intMax by omega⟩
  intro n
  induction n generalizing st with
  | zero =>
    intro st' hst'
    obtain rfl := Option.some.inj hst'
    exact turnHasRoom_of fun cur pq hperm _ => (hturn hperm hsize).1
  | succ n ih =>
    intro st' hst'
    rw [after] at hst'
    rcases step_cases g st with ⟨-, hnone⟩ | ⟨cur, pq, hperm, -, ⟨-, hsome⟩ | ⟨-, hsome⟩⟩
    · rw [hnone] at hst'
      exact absurd hst' (by simp)
    · rw [hsome] at hst'
      have hlen := hperm.length_eq
      rw [List.length_cons] at hlen
      exact @ih { st with pq := pq } (by dsimp only; omega) st' hst'
    · rw [hsome] at hst'
      exact ih (hturn hperm hsize).2 st' hst'

/-! ## Termination

The measure goes down in every turn, so fuel above the measure of the first state is enough. -/

section Termination

variable {candidates : Finset ℚ}

/-- Two for every improvement that is still possible, one for every node of the queue. -/
def measure (g : GraphImpl) (candidates : Finset ℚ) (st : DijkstraState) : ℕ :=
  2 * ∑ u ∈ g.vertices, rank candidates st.dist u + st.pq.data.length

theorem length_le_measure (g : GraphImpl) (candidates : Finset ℚ) (st : DijkstraState) :
    st.pq.data.length ≤ measure g candidates st := Nat.le_add_left _ _

/-- The labels are weights of paths, all of them among the candidates. -/
structure Candidates (g : GraphImpl) (s : ℕ) (candidates : Finset ℚ) : Prop where
  acyclic : ¬ NegativeCycle g.weights s
  /-- No label that stands for a path can be anything else. -/
  mem : ∀ {d : ℕ → WithTop ℚ}, PathLabels g.weights s d → ∀ v (x : ℚ), d v = x → x ∈ candidates

theorem relaxEdge_measure (h : WellFormed g) (hc : Candidates g s candidates) {v : ℕ}
    (hv : v ∈ g.vertices) {e : ℕ × WithTop ℚ} {es : List (ℕ × WithTop ℚ)} {st : DijkstraState}
    (hinv : Inv g s v (e :: es) st) (hpaths : PathLabels g.weights s st.dist)
    (he : e ∈ g.outEdges v) (hsize : st.dist v + e.2 < st.dist e.1 → st.pq.data.length < intMax) :
    PathLabels g.weights s (DijkstraState.relaxEdge v st e).dist ∧
      measure g candidates (DijkstraState.relaxEdge v st e) ≤ measure g candidates st := by
  have hreal := weights_of_mem h hv he
  have hpaths' := hpaths.relax hc.acyclic hreal
  rw [← relaxEdge_dist] at hpaths'
  refine ⟨hpaths', ?_⟩
  by_cases hlt : st.dist v + e.2 < st.dist e.1
  · obtain ⟨x, hx⟩ := WithTop.ne_top_iff_exists.mp (ne_top_of_lt hlt)
    obtain ⟨y, z, -, hz, -⟩ := exists_of_add_eq hx.symm
    have ht : e.1 ∈ g.vertices := (GraphImpl.mem_of_weights_ne_top (g := g) (u := v) (by
      rw [hreal z hz]
      exact WithTop.coe_ne_top)).2
    have hsum := sum_rank_relax candidates ht hlt fun x hx => by
      refine hc.mem hpaths' e.1 x ?_
      rw [relaxEdge_dist, relax_of_lt hlt, Function.update_self, hx]
    obtain ⟨-, -, hperm⟩ := relaxEdge_of_lt hinv.allocator hinv.capacity_pos (hsize hlt) hlt
    have hlen := hperm.length_eq
    rw [List.length_cons] at hlen
    simp only [measure]
    rw [relaxEdge_dist, hlen]
    omega
  · rw [relaxEdge_of_not_lt hlt]

theorem foldl_measure (h : WellFormed g) (hc : Candidates g s candidates) {v : ℕ}
    (hv : v ∈ g.vertices) : ∀ {es : List (ℕ × WithTop ℚ)} {st : DijkstraState}, Inv g s v es st →
      PathLabels g.weights s st.dist → (∀ e ∈ es, e ∈ g.outEdges v) → RoomFor v es st →
      PathLabels g.weights s (es.foldl (DijkstraState.relaxEdge v) st).dist ∧
        measure g candidates (es.foldl (DijkstraState.relaxEdge v) st) ≤
          measure g candidates st := by
  intro es
  induction es with
  | nil => exact fun _ hpaths _ _ => ⟨hpaths, le_rfl⟩
  | cons e es ih =>
    intro st hinv hpaths hes hroom
    have he := hes e List.mem_cons_self
    obtain ⟨hpaths₁, hle₁⟩ := relaxEdge_measure h hc hv hinv hpaths he hroom.1
    obtain ⟨hpaths₂, hle₂⟩ := ih (hinv.relaxEdge h hv he hroom.1) hpaths₁
      (fun e' he' => hes e' (List.mem_cons_of_mem _ he')) hroom.2
    exact ⟨hpaths₂, hle₂.trans hle₁⟩

/-- While fewer than `INT_MAX` improvements are possible, there is room. -/
theorem roomFor_of_measure (h : WellFormed g) (hc : Candidates g s candidates) {v : ℕ}
    (hv : v ∈ g.vertices) : ∀ {es : List (ℕ × WithTop ℚ)} {st : DijkstraState}, Inv g s v es st →
      PathLabels g.weights s st.dist → (∀ e ∈ es, e ∈ g.outEdges v) →
      measure g candidates st < intMax → RoomFor v es st := by
  intro es
  induction es with
  | nil => exact fun _ _ _ _ => trivial
  | cons e es ih =>
    intro st hinv hpaths hes hlt
    have he := hes e List.mem_cons_self
    have hsize : st.dist v + e.2 < st.dist e.1 → st.pq.data.length < intMax := fun _ =>
      (length_le_measure g candidates st).trans_lt hlt
    obtain ⟨hpaths₁, hle₁⟩ := relaxEdge_measure h hc hv hinv hpaths he hsize
    exact ⟨hsize, ih (hinv.relaxEdge h hv he hsize) hpaths₁
      (fun e' he' => hes e' (List.mem_cons_of_mem _ he')) (hle₁.trans_lt hlt)⟩

/-- A turn uses up a node of the queue. -/
theorem step_measure (h : WellFormed g) (hc : Candidates g s candidates) {v' : ℕ}
    {st st' : DijkstraState} (hinv : Inv g s v' [] st) (hpaths : PathLabels g.weights s st.dist)
    (hstep : st.step g = some st') (hroom : TurnHasRoom g st) :
    PathLabels g.weights s st'.dist ∧ measure g candidates st' < measure g candidates st := by
  rcases step_cases g st with ⟨-, hnone⟩ | ⟨cur, pq, hperm, hcap, hcases⟩
  · rw [hnone] at hstep
    exact absurd hstep (by simp)
  have hlen := hperm.length_eq
  rw [List.length_cons] at hlen
  have hpopped : measure g candidates { st with pq := pq } < measure g candidates st := by
    unfold measure
    dsimp only
    omega
  rcases hcases with ⟨-, hsome⟩ | ⟨hturn, hsome⟩
  · obtain rfl := Option.some.inj (hsome.symm.trans hstep)
    exact ⟨hpaths, hpopped⟩
  · obtain rfl := Option.some.inj (hsome.symm.trans hstep)
    have hv : cur.vertex ∈ g.vertices := hinv.mem cur (hperm.mem_iff.mp List.mem_cons_self)
    obtain ⟨hpaths', hle⟩ := foldl_measure h hc hv (hinv.popped h hperm hcap) hpaths
      (fun e he => he) (hturn hroom)
    exact ⟨hpaths', hle.trans_lt hpopped⟩

/-- Without negative cycles in reach the loop ends. -/
theorem loop_terminates (h : WellFormed g) (hc : Candidates g s candidates) :
    ∀ (bound : ℕ) {v : ℕ} {st : DijkstraState}, measure g candidates st < bound → Inv g s v [] st →
      PathLabels g.weights s st.dist → Roomy g st →
      ∀ fuel ≥ bound, ∃ fin, st.loop g fuel = some fin := by
  intro bound
  induction bound with
  | zero => exact fun hlt => absurd hlt (Nat.not_lt_zero _)
  | succ bound ih =>
    intro v st hlt hinv hpaths hroom fuel hfuel
    obtain ⟨fuel, rfl⟩ := Nat.exists_eq_succ_of_ne_zero (by omega : fuel ≠ 0)
    rw [loop]
    cases hstep : st.step g with
    | none => exact ⟨st, rfl⟩
    | some st' =>
      have hturn := hroom 0 st rfl
      obtain ⟨hpaths', hless⟩ := step_measure h hc hinv hpaths hstep hturn
      obtain ⟨v', hinv'⟩ := hinv.step h hstep hturn
      exact ih (by omega) hinv' hpaths' (hroom.step hstep) fuel (by omega)

/-- Labels that can improve less than `INT_MAX` times leave room in the queue. -/
theorem roomy_of_measure (h : WellFormed g) (hc : Candidates g s candidates) {v : ℕ}
    {st : DijkstraState} (hinv : Inv g s v [] st) (hpaths : PathLabels g.weights s st.dist)
    (hlt : measure g candidates st < intMax) : Roomy g st := by
  have hturn : ∀ {v : ℕ} {st : DijkstraState}, Inv g s v [] st → PathLabels g.weights s st.dist →
      measure g candidates st < intMax → TurnHasRoom g st := by
    intro v st hinv hpaths hlt
    refine turnHasRoom_of fun cur pq hperm hcap => ?_
    have hv : cur.vertex ∈ g.vertices := hinv.mem cur (hperm.mem_iff.mp List.mem_cons_self)
    have hlen := hperm.length_eq
    rw [List.length_cons] at hlen
    refine roomFor_of_measure h hc hv (hinv.popped h hperm hcap) hpaths (fun e he => he) ?_
    unfold measure at hlt ⊢
    dsimp only
    omega
  intro n
  induction n generalizing v st with
  | zero =>
    intro st' hst'
    obtain rfl := Option.some.inj hst'
    exact hturn hinv hpaths hlt
  | succ n ih =>
    intro st' hst'
    rw [after] at hst'
    cases hstep : st.step g with
    | none =>
      rw [hstep] at hst'
      exact absurd hst' (by simp)
    | some st₁ =>
      rw [hstep] at hst'
      have hroom := hturn hinv hpaths hlt
      obtain ⟨hpaths', hless⟩ := step_measure h hc hinv hpaths hstep hroom
      obtain ⟨v', hinv'⟩ := hinv.step h hstep hroom
      exact ih hinv' hpaths' (hless.trans hlt) st' hst'

end Termination

/-! ## The first state -/

/-- With allocations succeeding the loop is entered, with the start vertex in the queue. -/
theorem init_always (h : WellFormed g) (hs : s ∈ g.vertices) :
    ∃ st, init g s Allocator.always = some st ∧ Inv g s s [] st ∧ st.dist = initialDist s ∧
      st.pq.data = [⟨s, 0⟩] := by
  have hcount : 0 < g.vertexCount := by
    rw [h.count]
    exact Finset.card_pos.mpr ⟨s, hs⟩
  have hmax : g.vertexCount ≤ intMax := h.count ▸ h.card_vertices_le
  obtain ⟨pq, hpq, hnil, hcap⟩ := BinaryHeap.create_always (α := PqNode) (n := g.vertexCount)
    (by omega) (by omega)
  obtain ⟨arena, harena⟩ := (PqArena.init g.vertexCount).alloc_always
  obtain ⟨pq', hput, hperm, hcap'⟩ := BinaryHeap.put_always pqNodeCmp (h := pq) (hcap (by omega))
    (by rw [hnil]; decide) ⟨s, 0⟩
  rw [hnil] at hperm
  have hdata : pq'.data = [⟨s, 0⟩] := List.perm_singleton.mp hperm
  refine ⟨⟨initialDist s, pq', arena, Allocator.always⟩, ?_, ?_, rfl, hdata⟩
  · rw [init, createVector]
    simp only [Allocator.alloc_always, Bool.not_true, Bool.false_eq_true, if_false, gt_iff_lt,
      hcount, if_true, hpq, harena, hput]
  · refine ⟨rfl, hcap', ?_, initialDist_labels _ _, ?_⟩
    · intro node hnode
      rw [hdata] at hnode
      obtain rfl := List.mem_singleton.mp hnode
      exact hs
    · intro u
      dsimp only
      by_cases hu : u = s
      · left
        subst hu
        rw [hdata, initialDist, Function.update_self]
        exact List.mem_singleton_self _
      · right
        intro t c _
        right
        rw [show initialDist s u = ⊤ from Function.update_of_ne hu _ _, WithTop.top_add]
        exact le_top

/-- The weights of short walks are candidates. -/
theorem exists_candidates (hs : s ∈ g.vertices) (hcycle : ¬ NegativeCycle g.weights s) :
    ∃ candidates, Candidates g s candidates := by
  have hw : ∀ u v, g.weights u v ≠ ⊤ → v ∈ g.vertices := fun u v hne =>
    (GraphImpl.mem_of_weights_ne_top hne).2
  have hfinite := finite_shortWeights hw hs g.vertices.card
  exact ⟨hfinite.toFinset, hcycle, fun hpaths v x hx =>
    hfinite.mem_toFinset.mpr (hpaths.mem_shortWeights hw hs hx)⟩

end DijkstraState

/-- The queue of a call is never full when a node is put into it: `binary_heap_put` never answers
`OVA_ERROR_FULL`, which it does at `INT_MAX` nodes without asking the allocator. -/
def QueueHasRoom (g : GraphImpl) (start : ℤ) : Prop :=
  ∀ st, DijkstraState.init g start.toNat Allocator.always = some st → DijkstraState.Roomy g st

/-- Where no vertex has more than one edge out, the queue does not grow. -/
theorem queueHasRoom_of_length_le_one {g : GraphImpl} (hg : Built g) {start : ℤ}
    (hstart : g.hasVertex start = true) (hdegree : ∀ u, (g.outEdges u).length ≤ 1) :
    QueueHasRoom g start := by
  intro st hst
  obtain ⟨st', hinit, -, -, hdata⟩ := DijkstraState.init_always hg.wellFormed
    (GraphImpl.mem_vertices_of_hasVertex hstart)
  obtain rfl := Option.some.inj (hst.symm.trans hinit)
  exact DijkstraState.roomy_of_length_le_one hdegree
    (by rw [hdata]; exact Nat.succ_le_of_lt (by decide))

/-- The walks that visit no vertex twice have so few weights that the labels cannot improve often
enough to fill the queue. -/
theorem queueHasRoom_of_shortWeights {g : GraphImpl} (hg : Built g) {start : ℤ}
    (hstart : g.hasVertex start = true) (hcycle : ¬ NegativeCycle g.weights start.toNat)
    (hfew : 2 * (g.vertices.card * (shortWeights g.weights start.toNat g.vertices.card).ncard) + 1 <
      intMax) : QueueHasRoom g start := by
  intro st hst
  have hmem := GraphImpl.mem_vertices_of_hasVertex hstart
  obtain ⟨st', hinit, hinv, hdist, hdata⟩ := DijkstraState.init_always hg.wellFormed hmem
  obtain rfl := Option.some.inj (hst.symm.trans hinit)
  have hw : ∀ u v, g.weights u v ≠ ⊤ → v ∈ g.vertices := fun u v hne =>
    (GraphImpl.mem_of_weights_ne_top hne).2
  have hfinite := finite_shortWeights hw hmem g.vertices.card
  have hc : DijkstraState.Candidates g start.toNat hfinite.toFinset :=
    ⟨hcycle, fun hpaths v x hx => hfinite.mem_toFinset.mpr (hpaths.mem_shortWeights hw hmem hx)⟩
  have hpaths : PathLabels g.weights start.toNat st.dist := by
    rw [hdist]
    exact initialDist_paths _ _
  refine DijkstraState.roomy_of_measure hg.wellFormed hc hinv hpaths (lt_of_le_of_lt ?_ hfew)
  have hsum : ∑ u ∈ g.vertices, rank hfinite.toFinset st.dist u ≤
      g.vertices.card * hfinite.toFinset.card :=
    Finset.sum_le_card_nsmul _ _ _ fun u _ => Finset.card_filter_le _ _
  rw [DijkstraState.measure, hdata, List.length_singleton, Set.ncard_eq_toFinset_card _ hfinite]
  omega

/-- Where the weights are integers of absolute value at most `k`, the walks that visit no vertex
twice have at most `2 * |V| * k + 1` weights. -/
theorem queueHasRoom_of_intWeights {g : GraphImpl} (hg : Built g) {start : ℤ}
    (hstart : g.hasVertex start = true) (hcycle : ¬ NegativeCycle g.weights start.toNat) {k : ℕ}
    (hw : IntWeights g.weights k)
    (hfew : 2 * (g.vertices.card * (2 * (g.vertices.card * k) + 1)) + 1 < intMax) :
    QueueHasRoom g start := by
  refine queueHasRoom_of_shortWeights hg hstart hcycle (lt_of_le_of_lt ?_ hfew)
  have hcard := ncard_shortWeights_le (s := start.toNat) hw g.vertices.card
  gcongr

theorem dijkstra_eq {g : GraphImpl} {start : ℤ} (hstart : g.hasVertex start = true)
    {st : DijkstraState} (hinit : DijkstraState.init g start.toNat Allocator.always = some st)
    (fuel : ℕ) :
    g.dijkstra fuel start Allocator.always =
      (st.loop g fuel).map fun fin => ⟨1, some ⟨g.vertexCapacity, fin.dist⟩⟩ := by
  rw [GraphImpl.dijkstra]
  rw [GraphImpl.isValidVertex_eq, hstart, hinit]
  rfl

/-- Without a negative cycle in reach a call ends with the distances. -/
theorem dijkstra_ends {g : GraphImpl} (hg : Built g) {start : ℤ}
    (hstart : g.hasVertex start = true) (hcycle : ¬ NegativeCycle g.weights start.toNat)
    (hroom : QueueHasRoom g start) :
    ∃ d, IsDistance g.weights start.toNat d ∧ ∃ bound, ∀ fuel ≥ bound,
      g.dijkstra fuel start Allocator.always = some ⟨1, some ⟨g.vertexCapacity, d⟩⟩ := by
  have hwf := hg.wellFormed
  have hmem := GraphImpl.mem_vertices_of_hasVertex hstart
  obtain ⟨st, hinit, hinv, hdist, -⟩ := DijkstraState.init_always hwf hmem
  obtain ⟨candidates, hc⟩ := DijkstraState.exists_candidates hmem hcycle
  have hpaths : PathLabels g.weights start.toNat st.dist := by
    rw [hdist]
    exact initialDist_paths _ _
  have hends := DijkstraState.loop_terminates hwf hc _ (Nat.lt_succ_self _) hinv hpaths
    (hroom st hinit)
  obtain ⟨fin, hfin⟩ := hends _ le_rfl
  obtain ⟨hlabels, hrelaxed⟩ := DijkstraState.loop_relaxed hwf hinv (hroom st hinit) hfin
  have hdistance := hlabels.isDistance hrelaxed
  refine ⟨fin.dist, hdistance, DijkstraState.measure g candidates st + 1, fun fuel hfuel => ?_⟩
  obtain ⟨fin', hfin'⟩ := hends fuel hfuel
  obtain ⟨hlabels', hrelaxed'⟩ := DijkstraState.loop_relaxed hwf hinv (hroom st hinit) hfin'
  rw [dijkstra_eq hstart hinit, hfin', Option.map_some,
    (hlabels'.isDistance hrelaxed').unique hdistance]

/-! ## A detour that pays

The smallest graph in which a vertex comes back: its label is 4 when its edges are looked at first,
and the negative edge makes it 2 afterwards. -/

/-- Vertex 2 is reached directly at 4, and at 2 over vertex 1. -/
def detour : List Call :=
  [.addEdge 0 2 ((4 : ℚ) : WithTop ℚ), .addEdge 0 1 ((5 : ℚ) : WithTop ℚ),
    .addEdge 1 2 ((-3 : ℚ) : WithTop ℚ), .addEdge 2 3 ((1 : ℚ) : WithTop ℚ)]

/-- What `detour` stores. -/
def detourWeights (u v : ℕ) : WithTop ℚ :=
  if u = 2 ∧ v = 3 then ((1 : ℚ) : WithTop ℚ)
  else if u = 1 ∧ v = 2 then ((-3 : ℚ) : WithTop ℚ)
  else if u = 0 ∧ v = 1 then ((5 : ℚ) : WithTop ℚ)
  else if u = 0 ∧ v = 2 then ((4 : ℚ) : WithTop ℚ)
  else ⊤

/-- The distances from vertex 0. -/
def detourDist (v : ℕ) : WithTop ℚ :=
  if v = 0 then ((0 : ℚ) : WithTop ℚ)
  else if v = 1 then ((5 : ℚ) : WithTop ℚ)
  else if v = 2 then ((2 : ℚ) : WithTop ℚ)
  else if v = 3 then ((3 : ℚ) : WithTop ℚ)
  else ⊤

theorem detourWeights_cases {u v : ℕ} {c : ℚ} (h : detourWeights u v = c) :
    u = 2 ∧ v = 3 ∧ c = 1 ∨ u = 1 ∧ v = 2 ∧ c = -3 ∨ u = 0 ∧ v = 1 ∧ c = 5 ∨
      u = 0 ∧ v = 2 ∧ c = 4 := by
  unfold detourWeights at h
  split_ifs at h with h1 h2 h3 h4
  · exact .inl ⟨h1.1, h1.2, (WithTop.coe_injective h).symm⟩
  · exact .inr (.inl ⟨h2.1, h2.2, (WithTop.coe_injective h).symm⟩)
  · exact .inr (.inr (.inl ⟨h3.1, h3.2, (WithTop.coe_injective h).symm⟩))
  · exact .inr (.inr (.inr ⟨h4.1, h4.2, (WithTop.coe_injective h).symm⟩))
  · exact absurd h WithTop.top_ne_coe

/-- No edge improves these distances. -/
theorem detour_relaxed (u : ℕ) : Relaxed detourWeights detourDist u := by
  intro v c hc
  obtain ⟨rfl, rfl, rfl⟩ | ⟨rfl, rfl, rfl⟩ | ⟨rfl, rfl, rfl⟩ | ⟨rfl, rfl, rfl⟩ :=
    detourWeights_cases hc <;> exact WithTop.coe_le_coe.mpr (by norm_num)

theorem detour_walk {v : ℕ} {x : ℚ} (h : detourDist v = x) : ∃ n, Walk detourWeights 0 n v x := by
  have h1 : Walk detourWeights 0 1 1 (0 + 5) := Walk.nil.snoc rfl
  have h2 : Walk detourWeights 0 2 2 (0 + 5 + -3) := h1.snoc rfl
  have h3 : Walk detourWeights 0 3 3 (0 + 5 + -3 + 1) := h2.snoc rfl
  unfold detourDist at h
  split_ifs at h with hv hv hv hv
  · exact ⟨0, by rw [hv, ← WithTop.coe_injective h]; exact .nil⟩
  · exact ⟨1, by rw [hv, ← WithTop.coe_injective h]; convert h1; norm_num⟩
  · exact ⟨2, by rw [hv, ← WithTop.coe_injective h]; convert h2; norm_num⟩
  · exact ⟨3, by rw [hv, ← WithTop.coe_injective h]; convert h3; norm_num⟩
  · exact absurd h WithTop.top_ne_coe

theorem detour_isDistance : IsDistance detourWeights 0 detourDist :=
  isDistance_of_relaxed le_rfl (fun _ _ => detour_walk) detour_relaxed

theorem detour_intWeights : IntWeights detourWeights 5 := by
  intro u v c hc
  obtain ⟨-, -, rfl⟩ | ⟨-, -, rfl⟩ | ⟨-, -, rfl⟩ | ⟨-, -, rfl⟩ := detourWeights_cases hc
  · exact ⟨1, by decide, rfl⟩
  · exact ⟨-3, by decide, rfl⟩
  · exact ⟨5, by decide, rfl⟩
  · exact ⟨4, by decide, rfl⟩

/-- The graph that `detour` builds, with either strategy. -/
theorem exists_detour (ms : MinPathStrategy) :
    ∃ g, build (fun _ => 0) .directed .adjacencyList .bfs ms Allocator.always detour =
        some (g, Allocator.always) ∧ g.hasVertex 0 = true ∧ g.weights = detourWeights ∧
      g.vertices.card = 4 := by
  have hbelow : ∀ c ∈ detour, c.Below (2 ^ GraphRepresentation.adjacencyList.maxLog) := by
    intro c hc
    simp only [detour, List.mem_cons, List.not_mem_nil, or_false] at hc
    obtain rfl | rfl | rfl | rfl := hc <;>
      exact ⟨⟨by decide, by decide⟩, ⟨by decide, by decide⟩, WithTop.coe_ne_top⟩
  obtain ⟨g, hg, hrepr, -⟩ :=
    build_represents_below (fun _ => 0) .directed .adjacencyList .bfs ms hbelow
  refine ⟨g, hg, ?_, ?_, ?_⟩
  · rw [hrepr.hasVertex_iff]
    exact ⟨le_rfl, by decide⟩
  · funext u v
    rw [hrepr.weights_eq]
    show Function.update (Function.update (Function.update (Function.update
      (fun _ => (⊤ : WithTop ℚ)) (0, 2) ((4 : ℚ) : WithTop ℚ)) (0, 1) ((5 : ℚ) : WithTop ℚ))
      (1, 2) ((-3 : ℚ) : WithTop ℚ)) (2, 3) ((1 : ℚ) : WithTop ℚ) (u, v) = _
    simp only [Function.update_apply, Prod.mk.injEq, detourWeights]
  · rw [hrepr.vertices_eq]
    rfl

/-- The weights are integers of absolute value at most 5, so there is room. -/
theorem detour_roomy {g : GraphImpl} (hg : Built g) (hstart : g.hasVertex 0 = true)
    (hweights : g.weights = detourWeights) (hcard : g.vertices.card = 4) :
    ¬ NegativeCycle g.weights 0 ∧ QueueHasRoom g 0 := by
  have hcycle : ¬ NegativeCycle g.weights 0 := by
    rw [hweights]
    exact not_negativeCycle_of_relaxed le_rfl detour_relaxed
  have hint : IntWeights g.weights 5 := by
    rw [hweights]
    exact detour_intWeights
  refine ⟨hcycle, queueHasRoom_of_intWeights hg hstart hcycle hint ?_⟩
  rw [hcard]
  decide

/-! ## The main result -/

/-- **Dijkstra's algorithm is right, with negative edges too.** From a vertex of any graph that
calls can build, with no negative cycle in reach, it ends, returns 1, and stores the least weights
of walks, with infinity where there is no walk. -/
theorem dijkstra_correct (g : GraphImpl) (hg : Built g) (start : ℤ)
    (hstart : g.hasVertex start = true) (hcycle : ¬ NegativeCycle g.weights start.toNat)
    (hroom : QueueHasRoom g start) :
    ∃ d, IsDistance g.weights start.toNat d ∧ (∀ v, v ∉ g.vertices → d v = ⊤) ∧
      ∃ bound, ∀ fuel ≥ bound,
        g.dijkstra fuel start Allocator.always = some ⟨1, some ⟨g.vertexCapacity, d⟩⟩ := by
  obtain ⟨d, hd, hends⟩ := dijkstra_ends hg hstart hcycle hroom
  refine ⟨d, hd, fun v hv => ?_, hends⟩
  rw [hd.eq_top_iff]
  rintro ⟨n, x, hwalk⟩
  exact hv (hwalk.mem (P := (· ∈ g.vertices))
    (fun u v hne => (GraphImpl.mem_of_weights_ne_top hne).2)
    (GraphImpl.mem_vertices_of_hasVertex hstart))

/-- Vertex 2 comes back, and its edge is relaxed twice. -/
theorem dijkstra_correct_detour :
    ∃ g, build (fun _ => 0) .directed .adjacencyList .bfs .dijkstra Allocator.always detour =
        some (g, Allocator.always) ∧
      ∃ bound, ∀ fuel ≥ bound, g.dijkstra fuel 0 Allocator.always =
        some ⟨1, some ⟨g.vertexCapacity, detourDist⟩⟩ := by
  obtain ⟨g, hg, hstart, hweights, hcard⟩ := exists_detour .dijkstra
  have hbuilt : Built g := ⟨_, _, _, _, _, _, _, _, hg⟩
  obtain ⟨hcycle, hroom⟩ := detour_roomy hbuilt hstart hweights hcard
  obtain ⟨d, hd, -, hends⟩ := dijkstra_correct g hbuilt 0 hstart hcycle hroom
  rw [hweights] at hd
  rw [hd.unique detour_isDistance] at hends
  exact ⟨g, hg, hends⟩

end Graph

end OvaLib
