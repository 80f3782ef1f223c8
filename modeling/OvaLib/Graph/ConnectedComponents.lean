import OvaLib.Foundation.BreadthFirst
import OvaLib.Graph.StrongComponents
import OvaLib.Queue.LinkedQueue

/-!
# Connected components

`graph_connected_components_impl`. One queue serves all searches; a component is a list of vertex
pointers. Nobody looks at the error codes of the queue and of the lists.

The loop over the queue takes fuel, and `none` is a call that has not returned.

## The contract

Only undirected graphs are asked for their components; the call returns `NULL` for others. The
result is a list of lists. Every vertex is on exactly one of them, and two vertices are on one list
when and only when edges lead from one to the other.

## How the proof goes

`Searching` is the invariant of one search. It names the vertices visited before the search began,
and says that none of them is in reach; apart from that it is the invariant of breadth-first search.
The marks are those of all searches together, and the queue begins and ends empty.

`Collected` is the invariant of the loop over the vertices. Each complete list is what is in reach
of some vertex. That a later search meets no earlier component is where the graph has to be
undirected: a way into a component would be a way out of it too.

## Scope

With allocations succeeding. What happens when one fails is not described here; the model has it,
since the functions hand on the allocator and drop the codes as the source does.

## Main results

* `ComponentsState.search_spec` — a search drains the queue and visits what is in reach
* `ComponentsState.Collected.turn` — a search starts where no earlier one came
* `connectedComponents_correct` — the lists are the components
-/

namespace OvaLib

namespace Graph

/-- The variables of `graph_connected_components_impl` that its loops change. -/
structure ComponentsState where
  visited : ℕ → Bool
  q : LinkedQueue ℕ
  components : ArrayList (ArrayList (Option ℕ))
  allocator : Allocator

namespace ComponentsState

/-- `visited[v] = true; q->enqueue(q, v)`. -/
def enqueue (st : ComponentsState) (v : ℕ) : ComponentsState :=
  let (_, q, a) := st.q.enqueue v st.allocator
  { st with visited := Function.update st.visited v true, q := q, allocator := a }

/-- One edge out of the vertex that was dequeued. -/
def followEdge (st : ComponentsState) (e : ℕ × WithTop ℚ) : ComponentsState :=
  if st.visited e.1 then st else st.enqueue e.1

/-- The search from a start vertex, until the queue is empty. -/
def search (g : GraphImpl) : ℕ → ComponentsState → ArrayList (Option ℕ) →
    Option (ComponentsState × ArrayList (Option ℕ))
  | 0, _, _ => none
  | fuel + 1, st, comp =>
    match st.q.dequeue with
    | (none, _) => some (st, comp)
    | (some v, q) =>
      let (_, comp, a) := comp.insert (g.vertexPtrs v) comp.size st.allocator
      search g fuel ((g.outEdges v).foldl followEdge { st with q := q, allocator := a }) comp

/-- One turn of the loop over the vertices. -/
def turn (g : GraphImpl) (fuel : ℕ) (st : ComponentsState) (start : ℕ) : Option ComponentsState :=
  if !g.isValidVertex start ∨ st.visited start then some st
  else
    match ArrayList.create 4 st.allocator with
    | (none, a) => some { st with allocator := a }
    | (some comp, a) =>
      match search g fuel ({ st with allocator := a }.enqueue start) comp with
      | none => none
      | some (st, comp) =>
        let (_, components, a) := st.components.insert comp st.components.size st.allocator
        some { st with components := components, allocator := a }

/-- The state in which the loop over the vertices is entered, or `none` when there is no memory. -/
def init (a : Allocator) : Option ComponentsState :=
  match ArrayList.create 4 a with
  | (none, _) => none
  | (some components, a) =>
    let (visited, a) := a.alloc
    match LinkedQueue.create a with
    | (none, _) => none
    | (some q, a) => if !visited then none else some ⟨fun _ => false, q, components, a⟩

end ComponentsState

/-- `graph_connected_components_impl`. -/
def GraphImpl.connectedComponents (fuel : ℕ) (g : GraphImpl) (a : Allocator) :
    Option (Option (ArrayList (ArrayList (Option ℕ)))) :=
  if g.type ≠ .undirected then some none
  else
    match ComponentsState.init a with
    | none => some none
    | some st =>
      match (List.range g.vertexCapacity).foldlM (ComponentsState.turn g fuel) st with
      | none => none
      | some st => some (some st.components)

/-! ## One search

From a source that no earlier search came to. -/

open Foundation Relation

namespace ComponentsState

variable {g : GraphImpl} {st : ComponentsState} {comp : ArrayList (Option ℕ)}
  {components : ArrayList (ArrayList (Option ℕ))} {before : Set ℕ} {order pending : List ℕ}
  {s c v : ℕ}

theorem enqueue_always (h : st.allocator = Allocator.always) (v : ℕ) :
    ∃ q, st.enqueue v = { st with visited := Function.update st.visited v true, q := q } ∧
      q.items = st.q.items ++ [v] := by
  obtain ⟨q, henqueue, hitems⟩ := st.q.enqueue_always v
  refine ⟨q, ?_, hitems⟩
  rw [enqueue]
  rw [h, henqueue, ← h]

/-- The variables show a search from `s`. The vertices `before` were visited before it began. -/
structure Searching (g : GraphImpl) (components : ArrayList (ArrayList (Option ℕ)))
    (before : Set ℕ) (s : ℕ) (st : ComponentsState) (comp : ArrayList (Option ℕ))
    (order : List ℕ) (c : ℕ) (pending : List ℕ) : Prop where
  allocator : st.allocator = Allocator.always
  components_eq : st.components = components
  comp_eq : comp.items = order.map some
  comp_pos : 0 < comp.capacity
  layers : Layers (HasEdge g) s order st.q.items c pending
  /-- The marks are those of earlier searches and of this one. -/
  visited_iff : ∀ v, st.visited v = true ↔ v ∈ before ∨ v ∈ order ++ st.q.items

/-- A search begins with its source in the queue. -/
theorem searching_start (hst : st.allocator = Allocator.always) (hempty : st.q.items = [])
    (hvisited : ∀ v, st.visited v = true ↔ v ∈ before) (hcomp : comp.items = [])
    (hpos : 0 < comp.capacity) (s : ℕ) :
    Searching g st.components before s (st.enqueue s) comp [] s [] := by
  obtain ⟨q, heq, hitems⟩ := enqueue_always hst s
  rw [hempty, List.nil_append] at hitems
  rw [heq]
  refine ⟨hst, rfl, hcomp, hpos, ?_, fun v => ?_⟩
  · show Layers (HasEdge g) s [] q.items s []
    rw [hitems]
    exact .start _ s
  · show Function.update st.visited s true v = true ↔ v ∈ before ∨ v ∈ [] ++ q.items
    rw [update_true_iff, hitems, List.nil_append, List.mem_singleton, hvisited, or_comm]

/-- One edge out of the vertex that was dequeued. -/
theorem Searching.followEdge (hbefore : ∀ v, ReflTransGen (HasEdge g) s v → v ∉ before)
    {e : ℕ × WithTop ℚ} (h : Searching g components before s st comp order c (e.1 :: pending))
    (he : HasEdge g c e.1) :
    Searching g components before s (st.followEdge e) comp order c pending := by
  have hnot := hbefore e.1 (h.layers.reach_current.tail he)
  rw [ComponentsState.followEdge]
  split
  · next hvisited =>
    have hmem := ((h.visited_iff e.1).mp hvisited).resolve_left hnot
    exact { h with layers := h.layers.skip hmem }
  · next hnew =>
    have hmem : e.1 ∉ order ++ st.q.items := fun hmem => hnew ((h.visited_iff e.1).mpr (.inr hmem))
    obtain ⟨q, heq, hitems⟩ := enqueue_always h.allocator e.1
    rw [heq]
    refine ⟨h.allocator, h.components_eq, h.comp_eq, h.comp_pos, ?_, fun v => ?_⟩
    · show Layers (HasEdge g) s order q.items c pending
      rw [hitems]
      exact h.layers.visit hmem he
    · show Function.update st.visited e.1 true v = true ↔ v ∈ before ∨ v ∈ order ++ q.items
      rw [update_true_iff, h.visited_iff, hitems, ← List.append_assoc,
        List.mem_append (s := order ++ st.q.items), List.mem_singleton, or_comm, or_assoc]

theorem Searching.foldl_followEdge (hbefore : ∀ v, ReflTransGen (HasEdge g) s v → v ∉ before) :
    ∀ {es : List (ℕ × WithTop ℚ)} {st : ComponentsState},
      Searching g components before s st comp order c (es.map Prod.fst) →
      (∀ e ∈ es, HasEdge g c e.1) →
      Searching g components before s (es.foldl ComponentsState.followEdge st) comp order c [] := by
  intro es
  induction es with
  | nil => exact fun h _ => h
  | cons e es ih =>
    intro st h hes
    exact ih (h.followEdge hbefore (hes e List.mem_cons_self)) fun e' he' =>
      hes e' (List.mem_cons_of_mem _ he')

/-- One turn of the loop takes a vertex off the queue. -/
theorem Searching.turn (hwf : WellFormed g) (hptrs : HasPtrs g) (hs : s ∈ g.vertices)
    (hbefore : ∀ v, ReflTransGen (HasEdge g) s v → v ∉ before)
    (h : Searching g components before s st comp order c []) {q : LinkedQueue ℕ}
    (hqueue : st.q.items = v :: q.items) :
    ∃ comp', comp.insert (g.vertexPtrs v) comp.size st.allocator =
        (.success, comp', Allocator.always) ∧
      Searching g components before s ((g.outEdges v).foldl ComponentsState.followEdge
        { st with q := q, allocator := Allocator.always }) comp' (order ++ [v]) v [] := by
  have hlayers := h.layers
  rw [hqueue] at hlayers
  have hv : v ∈ g.vertices := mem_vertices_of_reach hs (hlayers.reach v (by simp))
  have hroom : comp.items.length < intMax := by
    have hlen := hlayers.length_le fun w => mem_vertices_of_reach hs
    have hmax := hwf.card_vertices_le
    rw [List.length_append, List.length_cons] at hlen
    rw [h.comp_eq, List.length_map]
    omega
  obtain ⟨comp', hinsert, hitems, hpos⟩ :=
    ArrayList.append_always h.comp_pos hroom (g.vertexPtrs v)
  refine ⟨comp', h.allocator ▸ hinsert, Searching.foldl_followEdge hbefore ?_ fun e he => ?_⟩
  · refine ⟨rfl, h.components_eq, ?_, hpos, ?_, fun w => ?_⟩
    · rw [hitems, h.comp_eq, hptrs v hv, List.map_append]
      rfl
    · exact hlayers.pop fun w hw => (mem_outEdges_fst hwf hv).mpr hw
    · show st.visited w = true ↔ w ∈ before ∨ w ∈ order ++ [v] ++ q.items
      rw [h.visited_iff, hqueue, List.append_assoc, List.singleton_append]
  · exact (mem_outEdges_fst hwf hv).mp (List.mem_map_of_mem he)

/-- **A search drains its queue**, by induction on the fuel: every turn takes off a vertex. -/
theorem search_spec (hwf : WellFormed g) (hptrs : HasPtrs g) (hs : s ∈ g.vertices)
    (hbefore : ∀ v, ReflTransGen (HasEdge g) s v → v ∉ before) :
    ∀ {fuel : ℕ} {st : ComponentsState} {comp : ArrayList (Option ℕ)} {order : List ℕ} {c : ℕ},
      Searching g components before s st comp order c [] →
      g.vertices.card < fuel + order.length →
      ∃ st' comp' order' c', search g fuel st comp = some (st', comp') ∧
        Searching g components before s st' comp' order' c' [] ∧ st'.q.items = [] := by
  intro fuel
  induction fuel with
  | zero =>
    intro st comp order c h hfuel
    have hlen := h.layers.length_le fun w => mem_vertices_of_reach hs
    rw [List.length_append] at hlen
    omega
  | succ fuel ih =>
    intro st comp order c h hfuel
    rw [search]
    cases hitems : st.q.items with
    | nil =>
      rw [LinkedQueue.dequeue_nil hitems]
      exact ⟨st, comp, order, c, rfl, h, hitems⟩
    | cons v items =>
      obtain ⟨q, hdequeue, hrest⟩ := LinkedQueue.dequeue_cons hitems
      obtain ⟨comp', hinsert, hturn⟩ := h.turn hwf hptrs hs hbefore (v := v) (q := q)
        (by rw [hitems, hrest])
      rw [hdequeue]
      dsimp only
      rw [hinsert]
      refine ih hturn ?_
      rw [List.length_append, List.length_singleton]
      omega

/-! ## The loop over the vertices

The list of a search is added to the result when the search is over. -/

/-- The variables show that the lists `comps` are complete: each holds what is in reach of one of
its vertices. -/
structure Collected (g : GraphImpl) (st : ComponentsState) (comps : List (List ℕ)) : Prop where
  allocator : st.allocator = Allocator.always
  /-- The queue is empty between two searches. -/
  queue_eq : st.q.items = []
  components_eq : st.components.items.map ArrayList.items = comps.map (List.map some)
  components_pos : 0 < st.components.capacity
  visited_iff : ∀ v, st.visited v = true ↔ v ∈ comps.flatten
  /-- No vertex is on two lists, or twice on one. -/
  nodup : comps.flatten.Nodup
  reach : ∀ c ∈ comps, ∃ s ∈ g.vertices, ∀ v, v ∈ c ↔ ReflTransGen (HasEdge g) s v

variable {comps : List (List ℕ)}

theorem Collected.mem_vertices (h : st.Collected g comps) (hv : v ∈ comps.flatten) :
    v ∈ g.vertices := by
  obtain ⟨c, hc, hv⟩ := List.mem_flatten.mp hv
  obtain ⟨s, hs, hreach⟩ := h.reach c hc
  exact mem_vertices_of_reach hs ((hreach v).mp hv)

/-- What is in reach of a vertex that no search reached is not reached either: a way leads back. -/
theorem Collected.not_mem_of_reach (h : st.Collected g comps)
    (hsymm : ∀ u v, HasEdge g u v → HasEdge g v u) (hs : s ∉ comps.flatten)
    (hv : ReflTransGen (HasEdge g) s v) : v ∉ comps.flatten := by
  intro hmem
  obtain ⟨c, hc, hvc⟩ := List.mem_flatten.mp hmem
  obtain ⟨r, -, hreach⟩ := h.reach c hc
  have : Std.Symm (HasEdge g) := ⟨hsymm⟩
  have hback : ReflTransGen (HasEdge g) v s := symm hv
  exact hs (List.mem_flatten.mpr ⟨c, hc, (hreach s).mpr (((hreach v).mp hvc).trans hback)⟩)

/-- There is room for one list more: each holds a vertex, and none holds `s`. -/
theorem Collected.length_lt (hwf : WellFormed g) (h : st.Collected g comps) (hs : s ∈ g.vertices)
    (hfresh : s ∉ comps.flatten) : st.components.items.length < intMax := by
  have hlen : st.components.items.length = comps.length := by
    have hmap := congrArg List.length h.components_eq
    rwa [List.length_map, List.length_map] at hmap
  have hcount : comps.length ≤ comps.flatten.length := by
    refine Search.length_le_length_flatten fun c hc => ?_
    obtain ⟨r, -, hr⟩ := h.reach c hc
    exact List.ne_nil_of_mem ((hr r).mpr .refl)
  have hcard : (s :: comps.flatten).length ≤ g.vertices.card :=
    length_le_card_of_nodup (List.nodup_cons.mpr ⟨hfresh, h.nodup⟩)
      (List.forall_mem_cons.mpr ⟨hs, fun v hv => h.mem_vertices hv⟩)
  have hmax := hwf.card_vertices_le
  rw [List.length_cons] at hcard
  omega

/-- **A search is complete**: its list is one more. -/
theorem Collected.concat (hsymm : ∀ u v, HasEdge g u v → HasEdge g v u)
    (h : st.Collected g comps) (hs : s ∈ g.vertices) (hfresh : s ∉ comps.flatten)
    {st₁ : ComponentsState}
    (h₁ : Searching g st.components {v | v ∈ comps.flatten} s st₁ comp order c [])
    (hempty : st₁.q.items = []) (hitems : components.items = st.components.items ++ [comp])
    (hpos : 0 < components.capacity) :
    Collected g { st₁ with components := components, allocator := Allocator.always }
      (comps ++ [order]) := by
  have hlayers := h₁.layers
  rw [hempty] at hlayers
  have horder : ∀ v, v ∈ order ↔ ReflTransGen (HasEdge g) s v := fun v => hlayers.mem_iff
  have hnodup : order.Nodup := (List.append_nil order) ▸ hlayers.nodup
  refine ⟨rfl, hempty, ?_, hpos, fun v => ?_, ?_, fun d hd => ?_⟩
  · show components.items.map ArrayList.items = _
    rw [hitems, List.map_append, h.components_eq, List.map_append, List.map_singleton,
      List.map_singleton, h₁.comp_eq]
  · show st₁.visited v = true ↔ v ∈ (comps ++ [order]).flatten
    rw [h₁.visited_iff, hempty, List.append_nil, List.flatten_append, List.flatten_singleton,
      List.mem_append]
    rfl
  · rw [List.flatten_append, List.flatten_singleton]
    refine List.nodup_append.mpr ⟨h.nodup, hnodup, fun a ha b hb hab => ?_⟩
    exact h.not_mem_of_reach hsymm hfresh ((horder b).mp hb) (hab ▸ ha)
  · rcases List.mem_append.mp hd with hd | hd
    · exact h.reach d hd
    · obtain rfl := List.mem_singleton.mp hd
      exact ⟨s, hs, horder⟩

/-- One turn of the loop over the vertices. -/
theorem Collected.turn (hwf : WellFormed g) (hptrs : HasPtrs g)
    (hsymm : ∀ u v, HasEdge g u v → HasEdge g v u) {fuel : ℕ} (hfuel : g.vertexCount < fuel)
    (h : st.Collected g comps) (s : ℕ) :
    ∃ st' comps', st.turn g fuel s = some st' ∧ st'.Collected g comps' ∧
      comps.flatten ⊆ comps'.flatten ∧ (s ∈ g.vertices → s ∈ comps'.flatten) := by
  rw [ComponentsState.turn]
  split
  · next hskip =>
    refine ⟨st, comps, rfl, h, List.Subset.refl _, fun hs => ?_⟩
    rw [GraphImpl.isValidVertex_cast.mpr hs] at hskip
    exact (h.visited_iff s).mp (hskip.resolve_left (by simp))
  · next hnot =>
    obtain ⟨hvalid, hnew⟩ := not_or.mp hnot
    have hs : s ∈ g.vertices := GraphImpl.isValidVertex_cast.mp (by simpa using hvalid)
    have hfresh : s ∉ comps.flatten := fun hmem => hnew ((h.visited_iff s).mpr hmem)
    obtain ⟨comp, hcreate, hnil, hpos⟩ : ∃ comp : ArrayList (Option ℕ),
        ArrayList.create 4 Allocator.always = (some comp, Allocator.always) ∧ comp.items = [] ∧
          0 < comp.capacity :=
      ⟨_, ArrayList.create_always (by norm_num) (by decide), rfl, by norm_num⟩
    have hstart : Searching g st.components {v | v ∈ comps.flatten} s (st.enqueue s) comp [] s [] :=
      searching_start h.allocator h.queue_eq h.visited_iff hnil hpos s
    obtain ⟨st₁, comp', order, c, hsearch, h₁, hempty⟩ := search_spec hwf hptrs hs
      (fun v hv => h.not_mem_of_reach hsymm hfresh hv) hstart
      (by rw [← hwf.count, List.length_nil]; exact hfuel)
    obtain ⟨components, hinsert, hitems, hpos'⟩ :=
      ArrayList.append_always h.components_pos (h.length_lt hwf hs hfresh) comp'
    have hconcat := h.concat hsymm hs hfresh h₁ hempty hitems hpos'
    have hmem : s ∈ order := by
      have hlayers := h₁.layers
      rw [hempty] at hlayers
      exact hlayers.mem_iff.mpr .refl
    refine ⟨_, comps ++ [order], ?_, hconcat, ?_, fun _ => ?_⟩
    · have hsame : ({ st with allocator := Allocator.always } : ComponentsState) = st := by
        rw [← h.allocator]
      rw [h.allocator, hcreate]
      dsimp only
      rw [hsame, hsearch]
      dsimp only
      rw [h₁.components_eq, h₁.allocator, hinsert]
    · rw [List.flatten_append]
      exact List.subset_append_left _ _
    · rw [List.flatten_append, List.flatten_singleton]
      exact List.mem_append_right _ hmem

/-- The loop over the vertices, by induction on those still to come. -/
theorem foldlM_turn_spec (hwf : WellFormed g) (hptrs : HasPtrs g)
    (hsymm : ∀ u v, HasEdge g u v → HasEdge g v u) {fuel : ℕ} (hfuel : g.vertexCount < fuel) :
    ∀ (vs : List ℕ) {st : ComponentsState} {comps : List (List ℕ)}, st.Collected g comps →
      ∃ st' comps', vs.foldlM (ComponentsState.turn g fuel) st = some st' ∧
        st'.Collected g comps' ∧ comps.flatten ⊆ comps'.flatten ∧
        ∀ v ∈ vs, v ∈ g.vertices → v ∈ comps'.flatten := by
  intro vs
  induction vs with
  | nil => exact fun {st comps} h => ⟨st, comps, rfl, h, List.Subset.refl _, by simp⟩
  | cons v vs ih =>
    intro st comps h
    obtain ⟨st₁, comps₁, hturn, h₁, hsub, hv⟩ := h.turn hwf hptrs hsymm hfuel v
    obtain ⟨st₂, comps₂, hloop, h₂, hsub₂, hvs⟩ := ih h₁
    refine ⟨st₂, comps₂, ?_, h₂, List.Subset.trans hsub hsub₂, fun u hu humem => ?_⟩
    · rw [List.foldlM_cons, hturn]
      exact hloop
    · rcases List.mem_cons.mp hu with rfl | hu
      · exact hsub₂ (hv humem)
      · exact hvs u hu humem

end ComponentsState

open ComponentsState

variable {g : GraphImpl}

/-- The state in which the loop over the vertices is entered shows no list. -/
theorem init_always (g : GraphImpl) :
    ∃ st, ComponentsState.init Allocator.always = some st ∧ st.Collected g [] := by
  obtain ⟨components, hcreate, hnil, hpos⟩ : ∃ components : ArrayList (ArrayList (Option ℕ)),
      ArrayList.create 4 Allocator.always = (some components, Allocator.always) ∧
        components.items = [] ∧ 0 < components.capacity :=
    ⟨_, ArrayList.create_always (by norm_num) (by decide), rfl, by norm_num⟩
  refine ⟨⟨fun _ => false, ⟨[], 0⟩, components, Allocator.always⟩, ?_, rfl, rfl, ?_, hpos,
    fun v => by simp, List.nodup_nil, fun c hc => absurd hc List.not_mem_nil⟩
  · rw [ComponentsState.init, hcreate]
    rfl
  · rw [hnil]
    rfl

/-- **The connected components.** With allocations succeeding the call returns, and the lists it
returns are those of the pointers to the vertices of each component: every vertex is in one list
once, and two vertices share a list exactly when a path joins them. -/
theorem connectedComponents_correct (hg : Built g) (htype : g.type = .undirected)
    (hsymm : ∀ u v, HasEdge g u v → HasEdge g v u) {fuel : ℕ} (hfuel : g.vertexCount < fuel) :
    ∃ (out : ArrayList (ArrayList (Option ℕ))) (comps : List (List ℕ)),
      g.connectedComponents fuel Allocator.always = some (some out) ∧
      out.items.map ArrayList.items = comps.map (List.map some) ∧
      (∀ c ∈ comps, c ≠ []) ∧ comps.flatten.Nodup ∧
      (∀ v, v ∈ comps.flatten ↔ v ∈ g.vertices) ∧
      ∀ u ∈ g.vertices, ∀ v ∈ g.vertices,
        (∃ c ∈ comps, u ∈ c ∧ v ∈ c) ↔ ReflTransGen (HasEdge g) u v := by
  obtain ⟨st, hinit, hst⟩ := init_always g
  obtain ⟨st', comps, hloop, h, -, hall⟩ := foldlM_turn_spec hg.wellFormed hg.hasPtrs hsymm hfuel
    (List.range g.vertexCapacity) hst
  have hmem : ∀ v, v ∈ comps.flatten ↔ v ∈ g.vertices := fun v =>
    ⟨h.mem_vertices, fun hv => hall v (List.mem_range.mpr (GraphImpl.mem_vertices.mp hv).1) hv⟩
  refine ⟨st'.components, comps, ?_, h.components_eq, fun c hc => ?_, h.nodup, hmem,
    fun u hu v _ => ⟨?_, fun huv => ?_⟩⟩
  · rw [GraphImpl.connectedComponents]
    rw [if_neg (not_not.mpr htype), hinit]
    dsimp only
    rw [hloop]
  · obtain ⟨s, -, hreach⟩ := h.reach c hc
    exact List.ne_nil_of_mem ((hreach s).mpr .refl)
  · rintro ⟨c, hc, hu', hv'⟩
    obtain ⟨s, -, hreach⟩ := h.reach c hc
    have : Std.Symm (HasEdge g) := ⟨hsymm⟩
    have hback : ReflTransGen (HasEdge g) u s := symm ((hreach u).mp hu')
    exact hback.trans ((hreach v).mp hv')
  · obtain ⟨c, hc, hu'⟩ := List.mem_flatten.mp ((hmem u).mpr hu)
    obtain ⟨s, -, hreach⟩ := h.reach c hc
    exact ⟨c, hc, hu', (hreach v).mpr (((hreach u).mp hu').trans huv)⟩

/-- What calls build on an undirected graph has every edge both ways. -/
theorem Represents.hasEdge_symm {A : AbstractGraph} (h : Represents g A)
    (htype : A.type = .undirected) (hsymm : A.Symmetric) (u v : ℕ) (huv : HasEdge g u v) :
    HasEdge g v u := by
  obtain ⟨-, -, hweight⟩ := (h.hasEdge_iff u v).mp huv
  refine (h.hasEdge_iff v u).mpr ⟨Int.natCast_nonneg v, Int.natCast_nonneg u, ?_⟩
  rw [hsymm htype] at hweight
  exact hweight

/-- Two vertices and one more with a loop. -/
theorem connectedComponents_correct_pair :
    ∃ g, build (fun _ => 0) .undirected .adjacencyMatrix .bfs .dijkstra Allocator.always
        [.addEdge 3 1 1, .addEdge 20 20 1] = some (g, Allocator.always) ∧
      ∃ (out : ArrayList (ArrayList (Option ℕ))) (comps : List (List ℕ)),
        g.connectedComponents (g.vertexCount + 1) Allocator.always = some (some out) ∧
        out.items.map ArrayList.items = comps.map (List.map some) ∧
        (∀ c ∈ comps, c ≠ []) ∧ comps.flatten.Nodup ∧
        (∀ v, v ∈ comps.flatten ↔ v ∈ g.vertices) ∧
        ∀ u ∈ g.vertices, ∀ v ∈ g.vertices,
          (∃ c ∈ comps, u ∈ c ∧ v ∈ c) ↔ ReflTransGen (HasEdge g) u v := by
  have hscope : ∀ c ∈ [Call.addEdge 3 1 1, .addEdge 20 20 1], c.InScope := by decide
  obtain ⟨g, hg, hrepr, -⟩ :=
    build_represents (fun _ => 0) .undirected .adjacencyMatrix .bfs .dijkstra hscope
  have htype := AbstractGraph.ofCalls_type .undirected [.addEdge 3 1 1, .addEdge 20 20 1]
  exact ⟨g, hg, connectedComponents_correct ⟨_, _, _, _, _, _, _, _, hg⟩
    (hrepr.type_eq.trans htype)
    (hrepr.hasEdge_symm htype (AbstractGraph.symmetric_ofCalls _ _)) (Nat.lt_succ_self _)⟩

end Graph

end OvaLib
