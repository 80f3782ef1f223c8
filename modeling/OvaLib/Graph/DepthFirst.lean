import OvaLib.Foundation.DepthFirst
import OvaLib.Graph.TopologicalSort
import OvaLib.Stack.ArrayStack

/-!
# Depth-first traversal

`graph_dfs_iterative_impl` and `graph_dfs_recursive_impl`. The first keeps the vertices to come to
on a stack, on which it puts the successors of a vertex from the last to the first, the second in
the loops of the calls it makes.

The loop and the recursion take fuel, and `none` is a call that has not returned.

## One order, two ways to it

The abstract search has a list of vertices to come to, takes the first, and puts its successors in
front. A stack is such a list. So the loop carries out the search by definition, apart from two
things: a vertex may be on the stack several times, of which all but one are dropped when they come
to the top, and a successor that was visited is not pushed at all.

The recursion has no such list. Its calls are shown to do what the search does with the successors
of one vertex before it goes on to what was there, and a call for a vertex is one that the search
makes whichever list stands behind it. The induction is on the fuel, with the loop over the edges as
an inner induction.

## The size of the stack

The iterative search pushes a vertex for each edge whose head it has not visited yet. The stack is
an array list, which holds `INT_MAX` items at most and whose refusals nobody looks at. `StackFits`
bounds the number of edges so that this cannot happen; the recursion needs no bound.

## Main results

* `DfsStackState.loop_spec`, `dfsRecursiveVisit_spec` — both carry out the abstract search
* `dfs_correct` — both return the vertices in reach in the same order
-/

namespace OvaLib

namespace Graph

open Foundation Relation

/-! ## The model

The two functions share the variables that `DfsState` has; the iterative one has a stack besides. -/

/-- The variables of `graph_dfs_iterative_impl`. -/
structure DfsStackState where
  visited : ℕ → Bool
  stack : ArrayStack ℕ
  order : ArrayList (Option ℕ)
  allocator : Allocator

namespace DfsStackState

/-- `st->push(st, v)`; nobody looks at the error code. -/
def push (st : DfsStackState) (v : ℕ) : DfsStackState :=
  let (_, stack, a) := st.stack.push v st.allocator
  { st with stack := stack, allocator := a }

/-- One edge out of the vertex that was popped. -/
def pushEdge (st : DfsStackState) (e : ℕ × WithTop ℚ) : DfsStackState :=
  if st.visited e.1 then st else st.push e.1

/-- `visited[v] = true; order->insert(order, g->vertex_ptrs[v], order->size(order))`. -/
def visit (g : GraphImpl) (st : DfsStackState) (v : ℕ) : DfsStackState :=
  let (_, order, a) := st.order.insert (g.vertexPtrs v) st.order.size st.allocator
  { st with visited := Function.update st.visited v true, order := order, allocator := a }

/-- The loop, until the stack is empty. The edges out of a vertex are taken from the last to the
first. -/
def loop (g : GraphImpl) : ℕ → DfsStackState → Option DfsStackState
  | 0, _ => none
  | fuel + 1, st =>
    match st.stack.pop with
    | (none, _) => some st
    | (some v, stack) =>
      let st := { st with stack := stack }
      if st.visited v then loop g fuel st
      else loop g fuel ((g.outEdges v).reverse.foldl pushEdge (visit g st v))

end DfsStackState

/-- The variables that the calls of `dfs_recursive_visit` share. -/
structure DfsState where
  visited : ℕ → Bool
  order : ArrayList (Option ℕ)
  allocator : Allocator

namespace DfsState

/-- The beginning of `dfs_recursive_visit`. -/
def visit (g : GraphImpl) (st : DfsState) (v : ℕ) : DfsState :=
  let (_, order, a) := st.order.insert (g.vertexPtrs v) st.order.size st.allocator
  { st with visited := Function.update st.visited v true, order := order, allocator := a }

/-- One edge out of the vertex of a call. -/
def followEdge (visit : DfsState → ℕ → Option DfsState) (st : DfsState) (e : ℕ × WithTop ℚ) :
    Option DfsState :=
  if st.visited e.1 then some st else visit st e.1

end DfsState

namespace GraphImpl

/-- `dfs_recursive_visit`. -/
def dfsRecursiveVisit (g : GraphImpl) : ℕ → DfsState → ℕ → Option DfsState
  | 0, _, _ => none
  | fuel + 1, st, v =>
    (g.outEdges v).foldlM (DfsState.followEdge (dfsRecursiveVisit g fuel)) (st.visit g v)

/-- `graph_dfs_iterative_impl`. -/
def dfsIterative (fuel : ℕ) (g : GraphImpl) (startVertex : ℤ) (a : Allocator) :
    Option (Option (ArrayList (Option ℕ))) :=
  match g.createVertexList a with
  | (none, _) => some none
  | (some order, a) =>
    if !g.isValidVertex startVertex then some (some order)
    else
      let (visited, a) := a.alloc
      let (st, a) := ArrayStack.create a
      match visited, st with
      | true, some stack =>
        let st := DfsStackState.push ⟨fun _ => false, stack, order, a⟩ startVertex.toNat
        match st.loop g fuel with
        | none => none
        | some st => some (some st.order)
      | _, _ => some none

/-- `graph_dfs_recursive_impl`. -/
def dfsRecursive (fuel : ℕ) (g : GraphImpl) (startVertex : ℤ) (a : Allocator) :
    Option (Option (ArrayList (Option ℕ))) :=
  match g.createVertexList a with
  | (none, _) => some none
  | (some order, a) =>
    if !g.isValidVertex startVertex then some (some order)
    else
      let (visited, a) := a.alloc
      if !visited then some none
      else
        match g.dfsRecursiveVisit fuel ⟨fun _ => false, order, a⟩ startVertex.toNat with
        | none => none
        | some st => some (some st.order)

end GraphImpl

/-! ## What the calls share

The list that is returned has room for every vertex, since it never holds one twice. -/

variable {g : GraphImpl} {order todo : List ℕ} {v : ℕ}

/-- The variables show a search that has come to the vertices `order`. -/
structure DfsState.Shows (g : GraphImpl) (st : DfsState) (order : List ℕ) : Prop where
  allocator : st.allocator = Allocator.always
  /-- The list holds the pointers of the vertices come to, in order. -/
  order_eq : st.order.items = order.map some
  order_pos : 0 < st.order.capacity
  visited_iff : ∀ v, st.visited v = true ↔ v ∈ order
  nodup : order.Nodup
  mem_vertices : ∀ v ∈ order, v ∈ g.vertices

namespace DfsState

variable {st : DfsState}

theorem Shows.length_le (h : st.Shows g order) : order.length ≤ g.vertices.card := by
  exact length_le_card_of_nodup h.nodup h.mem_vertices

/-- There is room for one vertex more. -/
theorem Shows.length_lt (h : st.Shows g order) (hv : v ∈ g.vertices) (hnew : v ∉ order) :
    order.length < g.vertices.card := by
  have hmem : ∀ u ∈ v :: order, u ∈ g.vertices := List.forall_mem_cons.mpr ⟨hv, h.mem_vertices⟩
  exact length_le_card_of_nodup (List.nodup_cons.mpr ⟨hnew, h.nodup⟩) hmem

/-- The search comes to `v`. -/
theorem Shows.visit (h : st.Shows g order) (hwf : WellFormed g) (hptrs : HasPtrs g)
    (hv : v ∈ g.vertices) (hnew : v ∉ order) : (st.visit g v).Shows g (order ++ [v]) := by
  have hroom : st.order.items.length < intMax := by
    have hlen := h.length_lt hv hnew
    have hmax := hwf.card_vertices_le
    rw [h.order_eq, List.length_map]
    omega
  obtain ⟨out, hinsert, hitems, hpos⟩ := ArrayList.append_always h.order_pos hroom (g.vertexPtrs v)
  rw [DfsState.visit]
  dsimp only
  rw [h.allocator, hinsert]
  refine ⟨rfl, ?_, hpos, fun u => ?_, ?_, fun u hu => ?_⟩
  · show out.items = _
    rw [hitems, h.order_eq, hptrs v hv, List.map_append]
    rfl
  · show Function.update st.visited v true u = true ↔ _
    rw [update_true_iff, h.visited_iff, List.mem_append, List.mem_singleton, or_comm]
  · exact List.concat_eq_append ▸ h.nodup.concat hnew
  · rcases List.mem_append.mp hu with hu | hu
    · exact h.mem_vertices u hu
    · exact List.mem_singleton.mp hu ▸ hv

end DfsState

theorem mem_heads_iff (hwf : WellFormed g) {u v : ℕ} (hu : u ∈ g.vertices) :
    v ∈ heads g u ↔ HasEdge g u v := mem_outEdges_fst hwf hu

/-! ## The calls -/

/-- **A call of `dfs_recursive_visit`**, by induction on the fuel: every call comes to a vertex. -/
theorem dfsRecursiveVisit_spec (hwf : WellFormed g) (hptrs : HasPtrs g) :
    ∀ {fuel : ℕ} {st : DfsState} {order : List ℕ} {v : ℕ}, st.Shows g order → v ∈ g.vertices →
      v ∉ order → g.vertices.card ≤ fuel + order.length →
      ∃ st' order', g.dfsRecursiveVisit fuel st v = some st' ∧ st'.Shows g order' ∧
        Explores (heads g) order [v] order' := by
  intro fuel
  induction fuel with
  | zero =>
    intro st order v h hv hnew hroom
    have hlt := h.length_lt hv hnew
    omega
  | succ fuel ih =>
    intro st order v h hv hnew hroom
    -- the loop over the edges, by induction on those still to come
    have hloop : ∀ {es : List (ℕ × WithTop ℚ)} {st : DfsState} {order : List ℕ}, st.Shows g order →
        (∀ e ∈ es, e.1 ∈ g.vertices) → g.vertices.card ≤ fuel + order.length →
        ∃ st' order', es.foldlM (DfsState.followEdge (g.dfsRecursiveVisit fuel)) st = some st' ∧
          st'.Shows g order' ∧ Explores (heads g) order (es.map Prod.fst) order' := by
      intro es
      induction es with
      | nil => exact fun {st order} h _ _ => ⟨st, order, rfl, h, .nil order⟩
      | cons e es ihes =>
        intro st order h hes hroom
        obtain ⟨st₁, order₁, hstep, h₁, hexplores⟩ : ∃ st₁ order₁,
            DfsState.followEdge (g.dfsRecursiveVisit fuel) st e = some st₁ ∧ st₁.Shows g order₁ ∧
              Explores (heads g) order [e.1] order₁ := by
          rw [DfsState.followEdge]
          split
          · next hvisited =>
            exact ⟨st, order, rfl, h, .skip ((h.visited_iff e.1).mp hvisited) (.nil order)⟩
          · next hnot =>
            exact ih h (hes e List.mem_cons_self) (fun hmem => hnot ((h.visited_iff e.1).mpr hmem))
              hroom
        have hgrown := hexplores.length_le
        obtain ⟨st₂, order₂, hrest, h₂, hexplores₂⟩ := ihes h₁
          (fun e' he' => hes e' (List.mem_cons_of_mem _ he')) (by omega)
        refine ⟨st₂, order₂, ?_, h₂, hexplores.append hexplores₂⟩
        rw [List.foldlM_cons, hstep]
        exact hrest
    obtain ⟨st', order', hrest, h', hexplores⟩ := hloop (h.visit hwf hptrs hv hnew)
      (fun e he => ((mem_heads_iff hwf hv).mp (List.mem_map_of_mem he)).mem_right)
      (by rw [List.length_append, List.length_singleton]; omega)
    refine ⟨st', order', by rw [GraphImpl.dfsRecursiveVisit, hrest], h', .enter hnew ?_⟩
    rw [List.append_nil]
    exact hexplores

/-! ## The stack

What is on the stack and what was visited determine how many turns are still to come: each turn
takes one vertex off, and each vertex visited puts on at most as many as it has edges. -/

/-- The edges out of the vertices outside a set. -/
def edgesOutside (g : GraphImpl) (S : Finset ℕ) : ℕ := ∑ u ∈ g.vertices \ S, (g.outEdges u).length

/-- The stack has room for the vertices that the loop puts on it. -/
def StackFits (g : GraphImpl) : Prop := edgesOutside g ∅ ≤ intMax

theorem edgesOutside_append (hv : v ∈ g.vertices) (hnew : v ∉ order) :
    edgesOutside g order.toFinset =
      (g.outEdges v).length + edgesOutside g (order ++ [v]).toFinset := by
  have hset : (order ++ [v]).toFinset = insert v order.toFinset := by
    ext u
    simp
  rw [edgesOutside, edgesOutside, hset, Finset.sdiff_insert]
  refine (Finset.add_sum_erase _ _ (Finset.mem_sdiff.mpr ⟨hv, ?_⟩)).symm
  rwa [List.mem_toFinset]

namespace DfsStackState

variable {st : DfsStackState}

/-- The variables that the recursive search has too. -/
def shared (st : DfsStackState) : DfsState := ⟨st.visited, st.order, st.allocator⟩

/-- The variables show a search that has come to `order` and has `todo` on the stack, the top
first. -/
structure Shows (g : GraphImpl) (st : DfsStackState) (order todo : List ℕ) : Prop where
  shared : st.shared.Shows g order
  stack_eq : st.stack.impl.items = todo.reverse
  stack_pos : 0 < st.stack.impl.capacity
  todo_mem : ∀ v ∈ todo, v ∈ g.vertices

theorem Shows.push (h : st.Shows g order todo) (hroom : todo.length < intMax)
    (hv : v ∈ g.vertices) : (st.push v).Shows g order (v :: todo) := by
  obtain ⟨stack, hpush, hitems, hpos⟩ := ArrayStack.push_always h.stack_pos
    (by rw [h.stack_eq, List.length_reverse]; exact hroom) v
  have halloc : st.allocator = Allocator.always := h.shared.allocator
  rw [DfsStackState.push]
  rw [halloc, hpush]
  refine ⟨⟨rfl, h.shared.order_eq, h.shared.order_pos, h.shared.visited_iff, h.shared.nodup,
    h.shared.mem_vertices⟩, ?_, hpos, fun u hu => ?_⟩
  · show stack.impl.items = _
    rw [hitems, h.stack_eq, List.reverse_cons]
  · rcases List.mem_cons.mp hu with rfl | hu
    · exact hv
    · exact h.todo_mem u hu

/-- The edges out of a vertex put their heads on the stack, but not those the search has come to. -/
theorem Shows.foldl_pushEdge : ∀ {es : List (ℕ × WithTop ℚ)} {st : DfsStackState} {todo : List ℕ},
    st.Shows g order todo → todo.length + es.length ≤ intMax → (∀ e ∈ es, e.1 ∈ g.vertices) →
    (es.foldl DfsStackState.pushEdge st).Shows g order
      (((es.map Prod.fst).filter fun v => v ∉ order).reverse ++ todo) := by
  intro es
  induction es with
  | nil => exact fun h _ _ => h
  | cons e es ih =>
    intro st todo h hroom hes
    have hes' : ∀ e' ∈ es, e'.1 ∈ g.vertices := fun e' he' => hes e' (List.mem_cons_of_mem _ he')
    rw [List.length_cons] at hroom
    have hvisited : st.visited e.1 = true ↔ e.1 ∈ order := h.shared.visited_iff e.1
    rw [List.foldl_cons, pushEdge, List.map_cons]
    by_cases hmem : e.1 ∈ order
    · rw [if_pos (hvisited.mpr hmem), List.filter_cons_of_neg (by simpa using hmem)]
      exact ih h (by omega) hes'
    · rw [if_neg (mt hvisited.mp hmem), List.filter_cons_of_pos (by simpa using hmem),
        List.reverse_cons, List.append_assoc, List.singleton_append]
      exact ih (h.push (by omega) (hes e List.mem_cons_self))
        (by rw [List.length_cons]; omega) hes'

theorem Shows.pop_nil (h : st.Shows g order []) : st.stack.pop = (none, st.stack) := by
  have hsize : st.stack.impl.size = 0 := by
    rw [ArrayList.size, h.stack_eq]
    rfl
  rw [ArrayStack.pop]
  rw [if_pos hsize]

theorem Shows.pop_cons (h : st.Shows g order (v :: todo)) :
    ∃ stack, st.stack.pop = (some v, stack) ∧ Shows g { st with stack := stack } order todo := by
  obtain ⟨stack, hpop, hitems, hcap⟩ := ArrayStack.pop_concat (h.stack_eq.trans List.reverse_cons)
  exact ⟨stack, hpop, h.shared, hitems, hcap ▸ h.stack_pos,
    fun u hu => h.todo_mem u (List.mem_cons_of_mem _ hu)⟩

/-- The search comes to a vertex that it took off the stack. -/
theorem Shows.enter (hwf : WellFormed g) (hptrs : HasPtrs g) (h : st.Shows g order todo)
    (hv : v ∈ g.vertices) (hnew : v ∉ order)
    (hroom : todo.length + (g.outEdges v).length ≤ intMax) :
    Shows g ((g.outEdges v).reverse.foldl pushEdge (visit g st v)) (order ++ [v])
      (((heads g v).filter fun u => u ∉ order ++ [v]) ++ todo) := by
  have hentered : Shows g (visit g st v) (order ++ [v]) todo :=
    ⟨h.shared.visit hwf hptrs hv hnew, h.stack_eq, h.stack_pos, h.todo_mem⟩
  have hroom' : todo.length + (g.outEdges v).reverse.length ≤ intMax := by
    rwa [List.length_reverse]
  have hpushed := hentered.foldl_pushEdge hroom' fun e he =>
    ((mem_heads_iff hwf hv).mp (List.mem_map_of_mem (List.mem_reverse.mp he))).mem_right
  rw [List.map_reverse, List.filter_reverse, List.reverse_reverse] at hpushed
  exact hpushed

/-- **The loop carries out the search**, by induction on the fuel: a turn takes a vertex off the
stack and puts others on it at most once for each edge. -/
theorem loop_spec (hwf : WellFormed g) (hptrs : HasPtrs g) :
    ∀ {fuel : ℕ} {st : DfsStackState} {order todo : List ℕ}, st.Shows g order todo →
      todo.length + edgesOutside g order.toFinset < fuel →
      todo.length + edgesOutside g order.toFinset ≤ intMax + 1 →
      ∃ st' order', st.loop g fuel = some st' ∧ st'.Shows g order' [] ∧
        Explores (heads g) order todo order' := by
  intro fuel
  induction fuel with
  | zero => exact fun _ hfuel _ => absurd hfuel (Nat.not_lt_zero _)
  | succ fuel ih =>
    intro st order todo h hfuel hfit
    rw [loop]
    cases todo with
    | nil =>
      rw [h.pop_nil]
      exact ⟨st, order, rfl, h, .nil order⟩
    | cons v todo =>
      obtain ⟨stack, hpop, hpopped⟩ := h.pop_cons
      have hv : v ∈ g.vertices := h.todo_mem v List.mem_cons_self
      have hvisited : st.visited v = true ↔ v ∈ order := h.shared.visited_iff v
      rw [List.length_cons] at hfuel hfit
      rw [hpop]
      dsimp only
      by_cases hmem : v ∈ order
      · rw [if_pos (hvisited.mpr hmem)]
        obtain ⟨st', order', hrest, h', hexplores⟩ := ih hpopped (by omega) (by omega)
        exact ⟨st', order', hrest, h', .skip hmem hexplores⟩
      · rw [if_neg (mt hvisited.mp hmem)]
        have hsum := edgesOutside_append (g := g) hv hmem
        have hlen : ((heads g v).filter fun u => u ∉ order ++ [v]).length ≤
            (g.outEdges v).length := by
          refine (List.length_filter_le _ _).trans ?_
          rw [heads, List.length_map]
        obtain ⟨st', order', hrest, h', hexplores⟩ :=
          ih (hpopped.enter hwf hptrs hv hmem (by omega))
            (by rw [List.length_append]; omega) (by rw [List.length_append]; omega)
        refine ⟨st', order', hrest, h', .enter hmem ?_⟩
        exact Explores.restore (fun u => u ∉ order ++ [v]) []
          (fun u _ hu => not_not.mp (of_decide_eq_false hu)) hexplores

end DfsStackState

/-! ## Both functions -/

/-- No vertex was come to before the first. -/
theorem DfsState.shows_nil {out : ArrayList (Option ℕ)} (hnil : out.items = [])
    (hpos : 0 < out.capacity) :
    DfsState.Shows g ⟨fun _ => false, out, Allocator.always⟩ [] :=
  ⟨rfl, hnil, hpos, fun v => by simp, List.nodup_nil, fun v hv => absurd hv List.not_mem_nil⟩

theorem dfsIterative_spec (hwf : WellFormed g) (hptrs : HasPtrs g) (hfit : StackFits g) {start : ℤ}
    (hstart : g.hasVertex start = true) {fuel : ℕ} (hfuel : edgesOutside g ∅ + 1 < fuel) :
    ∃ (out : ArrayList (Option ℕ)) (order : List ℕ),
      g.dfsIterative fuel start Allocator.always = some (some out) ∧ out.items = order.map some ∧
        order.Nodup ∧ Explores (heads g) [] [start.toNat] order := by
  obtain ⟨out, hcreate, hnil, hpos⟩ := createVertexList_always hwf
  obtain ⟨stack, hstack, hempty, hcap⟩ := ArrayStack.create_always (α := ℕ)
  have hmem := GraphImpl.mem_vertices_of_hasVertex hstart
  have hshows : DfsStackState.Shows g ⟨fun _ => false, stack, out, Allocator.always⟩ [] [] :=
    ⟨DfsState.shows_nil hnil hpos, hempty, hcap, fun v hv => absurd hv List.not_mem_nil⟩
  have hturns : [start.toNat].length + edgesOutside g ([] : List ℕ).toFinset < fuel := by
    rw [List.length_singleton, List.toFinset_nil]
    omega
  have hroom : [start.toNat].length + edgesOutside g ([] : List ℕ).toFinset ≤ intMax + 1 := by
    rw [StackFits] at hfit
    rw [List.length_singleton, List.toFinset_nil]
    omega
  obtain ⟨st, order, hloop, h, hexplores⟩ :=
    DfsStackState.loop_spec hwf hptrs (hshows.push (by decide) hmem) hturns hroom
  refine ⟨st.order, order, ?_, h.shared.order_eq, h.shared.nodup, hexplores⟩
  rw [GraphImpl.dfsIterative, hcreate]
  dsimp only
  rw [GraphImpl.isValidVertex_eq, hstart, Allocator.alloc_always]
  dsimp only
  rw [hstack]
  dsimp only
  rw [hloop]
  rfl

theorem dfsRecursive_spec (hwf : WellFormed g) (hptrs : HasPtrs g) {start : ℤ}
    (hstart : g.hasVertex start = true) {fuel : ℕ} (hfuel : g.vertexCount ≤ fuel) :
    ∃ (out : ArrayList (Option ℕ)) (order : List ℕ),
      g.dfsRecursive fuel start Allocator.always = some (some out) ∧ out.items = order.map some ∧
        Explores (heads g) [] [start.toNat] order := by
  obtain ⟨out, hcreate, hnil, hpos⟩ := createVertexList_always hwf
  obtain ⟨st, order, hvisit, h, hexplores⟩ := dfsRecursiveVisit_spec hwf hptrs
    (DfsState.shows_nil hnil hpos) (GraphImpl.mem_vertices_of_hasVertex hstart) List.not_mem_nil
    (by rw [← hwf.count]; exact hfuel)
  refine ⟨st.order, order, ?_, h.order_eq, hexplores⟩
  rw [GraphImpl.dfsRecursive, hcreate]
  dsimp only
  rw [GraphImpl.isValidVertex_eq, hstart, Allocator.alloc_always]
  dsimp only
  rw [hvisit]
  rfl

end Graph

end OvaLib
