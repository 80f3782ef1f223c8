import OvaLib.Foundation.Components
import OvaLib.Graph.Built
import OvaLib.Stack.ArrayStack

/-!
# Strongly connected components

`tarjan_dfs` and `graph_strongly_connected_components_impl`. The recursion takes fuel, and `none` is
a call that has not returned; a component is a list of vertex pointers.

## The contract

Only directed graphs are asked; the call returns `NULL` for others. Every vertex is on exactly one
of the lists that are returned. Two vertices are on one list when and only when each is in reach of
the other. The lists come in reverse topological order: an edge between two components leads to a
list that comes earlier.

## How the proof goes

The abstract search knows what was visited and in which order, what is on the stack, and which
components are complete. Its invariant speaks of reachability alone. `Shows` says that the arrays
and lists of the code are those of such a search: an index is the number a vertex was given, and
`-1` marks the vertices not visited; the stack of the code is the stack of the search from its
bottom to its top.

The low link of a vertex is what a call hands back to the call that made it. The specification of a
call, `DfsSpec`, says of it that it is the number of some vertex on the stack which can be reached,
and that nothing on the stack with a smaller number can be reached out of the subtree by one edge
more. At the end of the call this decides whether the entries down to `v` are a component.

The induction is on the fuel of the recursion. Each call visits a vertex, so the calls that can
still be nested are at most as many as there are unvisited vertices.

## Main results

* `TarjanState.Shows` — the variables of the search show a search of the abstract kind
* `tarjanDfs_spec` — one call, with the calls it makes
* `stronglyConnectedComponents_correct` — the components, in reverse topological order
-/

namespace OvaLib

namespace Graph

open Foundation

/-! ## The model -/

/-- The variables that the calls of `tarjan_dfs` share. -/
structure TarjanState where
  indexCounter : ℤ
  index : ℕ → ℤ
  lowlink : ℕ → ℤ
  onStack : ℕ → Bool
  stack : ArrayStack ℕ
  outComponents : ArrayList (ArrayList (Option ℕ))
  allocator : Allocator

namespace TarjanState

/-- The beginning of `tarjan_dfs`: `v` gets its index and goes on the stack. -/
def visit (st : TarjanState) (v : ℕ) : TarjanState :=
  let (_, stack, a) := st.stack.push v st.allocator
  { st with
    indexCounter := st.indexCounter + 1
    index := Function.update st.index v st.indexCounter
    lowlink := Function.update st.lowlink v st.indexCounter
    onStack := Function.update st.onStack v true
    stack := stack
    allocator := a }

/-- `lowlink[v] = low` -/
def setLowlink (st : TarjanState) (v : ℕ) (low : ℤ) : TarjanState :=
  { st with lowlink := Function.update st.lowlink v low }

/-- One edge out of `v`. -/
def followEdge (dfs : TarjanState → ℕ → Option TarjanState) (v : ℕ) (st : TarjanState)
    (e : ℕ × WithTop ℚ) : Option TarjanState :=
  if st.index e.1 = -1 then
    match dfs st e.1 with
    | none => none
    | some st =>
      some (if st.lowlink e.1 < st.lowlink v then st.setLowlink v (st.lowlink e.1) else st)
  else
    some (if st.onStack e.1 ∧ st.index e.1 < st.lowlink v then st.setLowlink v (st.index e.1)
      else st)

/-- The loop that takes the entries of a component off the stack, for as many turns as the stack
has entries. -/
def popComponent (g : GraphImpl) (v : ℕ) : ℕ → TarjanState → ArrayList (Option ℕ) →
    TarjanState × ArrayList (Option ℕ)
  | 0, st, component => (st, component)
  | n + 1, st, component =>
    match st.stack.pop with
    | (none, _) => (st, component)
    | (some w, stack) =>
      let (_, component, a) := component.insert (g.vertexPtrs w) component.size st.allocator
      let st := { st with
        stack := stack
        onStack := Function.update st.onStack w false
        allocator := a }
      if w = v then (st, component) else popComponent g v n st component

/-- The end of `tarjan_dfs`. -/
def finish (g : GraphImpl) (st : TarjanState) (v : ℕ) : TarjanState :=
  if st.lowlink v = st.index v then
    match ArrayList.create 4 st.allocator with
    | (none, a) => { st with allocator := a }
    | (some component, a) =>
      let (st, component) := popComponent g v st.stack.size { st with allocator := a } component
      let (_, outComponents, a) :=
        st.outComponents.insert component st.outComponents.size st.allocator
      { st with outComponents := outComponents, allocator := a }
  else st

end TarjanState

namespace GraphImpl

open TarjanState

/-- `tarjan_dfs`. -/
def tarjanDfs (g : GraphImpl) : ℕ → TarjanState → ℕ → Option TarjanState
  | 0, _, _ => none
  | fuel + 1, st, v =>
    match (g.outEdges v).foldlM (followEdge (tarjanDfs g fuel) v) (st.visit v) with
    | none => none
    | some st => some (st.finish g v)

/-- One turn of the loop over the vertices. -/
def tarjanRoot (g : GraphImpl) (fuel : ℕ) (st : TarjanState) (v : ℕ) : Option TarjanState :=
  if !g.isValidVertex v ∨ st.index v ≠ -1 then some st else g.tarjanDfs fuel st v

/-- The state in which the loop over the vertices is entered, or `none` when there is no memory. -/
def tarjanInit (a : Allocator) : Option TarjanState :=
  match ArrayList.create 4 a with
  | (none, _) => none
  | (some components, a) =>
    let (index, a) := a.alloc
    let (lowlink, a) := a.alloc
    let (onStack, a) := a.alloc
    match ArrayStack.create a with
    | (none, _) => none
    | (some stack, a) =>
      if !index || !lowlink || !onStack then none
      else
        some
          { indexCounter := 0
            index := fun _ => -1
            lowlink := fun _ => -1
            onStack := fun _ => false
            stack := stack
            outComponents := components
            allocator := a }

/-- `graph_strongly_connected_components_impl`. -/
def stronglyConnectedComponents (fuel : ℕ) (g : GraphImpl) (a : Allocator) :
    Option (Option (ArrayList (ArrayList (Option ℕ)))) :=
  if g.type ≠ .directed then some none
  else
    match tarjanInit a with
    | none => some none
    | some st =>
      match (List.range g.vertexCapacity).foldlM (g.tarjanRoot fuel) st with
      | none => none
      | some st => some (some st.outComponents)

end GraphImpl

/-! ## What the variables show

The low links are no part of this: they belong to the calls that are in progress. -/

/-- There is an edge, as a caller of the graph sees it. -/
def HasEdge (g : GraphImpl) (u v : ℕ) : Prop := g.hasEdge u v = true

theorem HasEdge.mem_left {g : GraphImpl} {u v : ℕ} (h : HasEdge g u v) : u ∈ g.vertices :=
  (hasEdge_cast.mp h).1

theorem HasEdge.mem_right {g : GraphImpl} {u v : ℕ} (h : HasEdge g u v) : v ∈ g.vertices :=
  (hasEdge_cast.mp h).2.1

/-- Only vertices are in reach of a vertex. -/
theorem mem_vertices_of_reach {g : GraphImpl} {s v : ℕ} (hs : s ∈ g.vertices)
    (h : Relation.ReflTransGen (HasEdge g) s v) : v ∈ g.vertices := by
  rcases Relation.ReflTransGen.cases_tail h with rfl | ⟨u, -, huv⟩
  · exact hs
  · exact huv.mem_right

/-- The variables show a search. -/
structure TarjanState.Shows (g : GraphImpl) (st : TarjanState) (S : Search ℕ) : Prop where
  allocator : st.allocator = Allocator.always
  counter : st.indexCounter = S.counter
  index_of_mem : ∀ v ∈ S.visited, st.index v = S.number v
  /-- How the code tells whether a vertex was visited. -/
  index_of_notMem : ∀ v, v ∉ S.visited → st.index v = -1
  counter_nonneg : 0 ≤ S.counter
  number_nonneg : ∀ v ∈ S.visited, 0 ≤ S.number v
  onStack : ∀ v, st.onStack v = true ↔ v ∈ S.stack
  /-- The top of the stack is at the end of its array. -/
  stack : st.stack.impl.items = S.stack.reverse
  outComponents : st.outComponents.items.map ArrayList.items = S.comps.map (List.map some)
  stack_pos : 0 < st.stack.impl.capacity
  outComponents_pos : 0 < st.outComponents.capacity
  visited_subset : S.visited ⊆ g.vertices

namespace TarjanState

variable {g : GraphImpl} {st : TarjanState} {S S' : Search ℕ} {path : List ℕ} {v : ℕ}

theorem Shows.index_eq_iff (h : st.Shows g S) : st.index v = -1 ↔ v ∉ S.visited := by
  refine ⟨fun heq hv => ?_, h.index_of_notMem v⟩
  have hnonneg := h.number_nonneg v hv
  rw [h.index_of_mem v hv] at heq
  omega

@[simp] theorem setLowlink_lowlink_self (st : TarjanState) (v : ℕ) (low : ℤ) :
    (st.setLowlink v low).lowlink v = low := Function.update_self _ _ _

theorem setLowlink_lowlink_of_ne (st : TarjanState) {u v : ℕ} (hu : u ≠ v) (low : ℤ) :
    (st.setLowlink v low).lowlink u = st.lowlink u := Function.update_of_ne hu _ _

theorem Shows.setLowlink (h : st.Shows g S) (v : ℕ) (low : ℤ) : (st.setLowlink v low).Shows g S :=
  ⟨h.allocator, h.counter, h.index_of_mem, h.index_of_notMem, h.counter_nonneg, h.number_nonneg,
    h.onStack, h.stack, h.outComponents, h.stack_pos, h.outComponents_pos, h.visited_subset⟩

/-- The beginning of a call comes to a new vertex. -/
theorem Shows.visit (h : st.Shows g S) (hwf : WellFormed g) (hinv : S.Inv (HasEdge g) path)
    (hv : v ∈ g.vertices) (hnew : v ∉ S.visited) :
    (st.visit v).Shows g (S.enter v) ∧ (st.visit v).lowlink v = S.counter ∧
      ∀ u ∈ S.visited, (st.visit v).lowlink u = st.lowlink u := by
  have hroom : st.stack.impl.items.length < intMax := by
    have hsub : S.visited ⊆ (g.vertices.erase v : Finset ℕ) := fun u hu => by
      refine Finset.mem_coe.mpr (Finset.mem_erase.mpr ⟨?_, h.visited_subset hu⟩)
      rintro rfl
      exact hnew hu
    have hle := (hinv.length_le hsub).1
    rw [Finset.card_erase_of_mem hv] at hle
    have hmax := hwf.card_vertices_le
    have hpos := Finset.card_pos.mpr ⟨v, hv⟩
    rw [h.stack, List.length_reverse]
    omega
  obtain ⟨stack, hpush, hitems, hcap⟩ := ArrayStack.push_always h.stack_pos hroom v
  rw [TarjanState.visit]
  rw [h.allocator, hpush]
  dsimp only
  have hne : ∀ u ∈ S.visited, u ≠ v := by
    rintro u hu rfl
    exact hnew hu
  refine ⟨⟨rfl, congrArg (· + 1) h.counter, fun u hu => ?_, fun u hu => ?_, ?_, fun u hu => ?_,
    fun u => ?_, ?_, h.outComponents, hcap, h.outComponents_pos, ?_⟩, ?_, fun u hu => ?_⟩
  · rcases hu with rfl | hu
    · rw [Search.enter_number_self]
      exact (Function.update_self _ _ _).trans h.counter
    · rw [Search.enter_number_of_mem hnew hu]
      exact (Function.update_of_ne (hne u hu) _ _).trans (h.index_of_mem u hu)
  · obtain ⟨huv, hu⟩ := not_or.mp (mt Set.mem_insert_iff.mpr hu)
    dsimp only
    rw [Function.update_of_ne huv, h.index_of_notMem u hu]
  · exact h.counter_nonneg.trans (Int.lt_succ _).le
  · rcases hu with rfl | hu
    · rw [Search.enter_number_self]
      exact h.counter_nonneg
    · rw [Search.enter_number_of_mem hnew hu]
      exact h.number_nonneg u hu
  · show Function.update st.onStack v true u = true ↔ u ∈ v :: S.stack
    rw [update_true_iff, h.onStack, List.mem_cons]
  · show stack.impl.items = (v :: S.stack).reverse
    rw [hitems, h.stack, List.reverse_cons]
  · intro u hu
    rcases hu with rfl | hu
    · exact hv
    · exact h.visited_subset hu
  · rw [Function.update_self, h.counter]
  · rw [Function.update_of_ne (hne u hu)]

/-! ## The end of a call

A component is the part of the stack from `v` to the top. -/

/-- The loop takes the entries down to `v` off the stack and appends their pointers to the
component. By induction on the entries above `v`. -/
theorem popComponent_spec (hptrs : HasPtrs g) {rest : List ℕ} :
    ∀ {seg : List ℕ} {n : ℕ} {st : TarjanState} {component : ArrayList (Option ℕ)},
      seg.length < n → st.allocator = Allocator.always → v ∉ seg →
      (∀ u ∈ seg ++ [v], u ∈ g.vertices) → st.stack.impl.items = (seg ++ v :: rest).reverse →
      0 < component.capacity → component.items.length + seg.length < intMax →
      ∃ stack onStack component', popComponent g v n st component =
          ({ st with stack := stack, onStack := onStack }, component') ∧
        stack.impl.items = rest.reverse ∧ stack.impl.capacity = st.stack.impl.capacity ∧
        (∀ u, onStack u = true ↔ st.onStack u = true ∧ u ∉ seg ++ [v]) ∧
        component'.items = component.items ++ (seg ++ [v]).map some := by
  intro seg
  induction seg with
  | nil =>
    intro n st component hn halloc _ hmem hitems hpos hsize
    obtain ⟨n, rfl⟩ := Nat.exists_eq_succ_of_ne_zero (Nat.ne_of_gt hn)
    rw [List.nil_append, List.reverse_cons] at hitems
    obtain ⟨stack, hpop, hstack, hcap⟩ := ArrayStack.pop_concat hitems
    obtain ⟨component', hinsert, hitems', -⟩ :=
      ArrayList.append_always hpos (by simpa using hsize) (g.vertexPtrs v)
    refine ⟨stack, Function.update st.onStack v false, component', ?_, hstack, hcap,
      fun u => ?_, ?_⟩
    · rw [popComponent, hpop]
      dsimp only
      rw [halloc, hinsert]
      dsimp only
      rw [if_pos rfl]
    · by_cases huv : u = v
      · simp [huv]
      · simp [huv]
    · rw [hitems', List.nil_append, hptrs v (hmem v (by simp))]
      rfl
  | cons w seg ih =>
    intro n st component hn halloc hv hmem hitems hpos hsize
    obtain ⟨n, rfl⟩ := Nat.exists_eq_succ_of_ne_zero (Nat.ne_of_gt (Nat.zero_lt_of_lt hn))
    rw [List.length_cons] at hn hsize
    obtain ⟨hvw, hv⟩ := not_or.mp (mt List.mem_cons.mpr hv)
    rw [List.cons_append, List.reverse_cons] at hitems
    obtain ⟨stack, hpop, hstack, hcap⟩ := ArrayStack.pop_concat hitems
    obtain ⟨component₁, hinsert, hitems₁, hpos₁⟩ :=
      ArrayList.append_always hpos (by omega) (g.vertexPtrs w)
    rw [hptrs w (hmem w (by simp))] at hitems₁
    obtain ⟨stack', onStack, component', hloop, hstack', hcap', hon, hcomponent⟩ :=
      @ih n { st with
          stack := stack
          onStack := Function.update st.onStack w false
          allocator := Allocator.always } component₁ (by omega) rfl hv
        (fun u hu => hmem u (List.mem_cons_of_mem _ hu)) hstack hpos₁ (by
          rw [hitems₁, List.length_append, List.length_singleton]
          omega)
    refine ⟨stack', onStack, component', ?_, hstack', hcap'.trans hcap, fun u => ?_, ?_⟩
    · rw [popComponent, hpop]
      dsimp only
      rw [halloc, hinsert]
      dsimp only
      rw [if_neg (Ne.symm hvw), hloop]
    · rw [hon]
      by_cases huw : u = w
      · simp [huw]
      · simp [huw]
    · rw [hcomponent, hitems₁]
      simp

/-- The entries down to `v` become a component. -/
theorem Shows.finish_cut {seg rest : List ℕ} (h : st.Shows g S) (hwf : WellFormed g)
    (hptrs : HasPtrs g) (hinv : S.Inv (HasEdge g) (v :: path))
    (hstack : S.stack = seg ++ v :: rest)
    (hcut : (S.cut (seg ++ [v]) rest).Inv (HasEdge g) path) (heq : st.lowlink v = st.index v) :
    (st.finish g v).Shows g (S.cut (seg ++ [v]) rest) ∧
      (st.finish g v).lowlink = st.lowlink := by
  have hnodup := (List.nodup_append.mp hinv.nodup).1
  rw [hstack] at hnodup
  obtain ⟨-, hrest, hdisjoint⟩ := List.nodup_append.mp hnodup
  have hvseg : v ∉ seg := fun hmem => hdisjoint v hmem v List.mem_cons_self rfl
  have hmem : ∀ u ∈ seg ++ [v], u ∈ g.vertices := fun u hu => by
    refine h.visited_subset (Search.mem_visited hinv ?_)
    rw [hstack]
    simp only [List.mem_append, List.mem_cons, List.not_mem_nil, or_false] at hu ⊢
    tauto
  have hmax := hwf.card_vertices_le
  obtain ⟨hle, hlec⟩ := hcut.length_le h.visited_subset
  have hlen := hlec (seg ++ [v]) (List.mem_append_right _ (List.mem_singleton_self _))
  rw [List.length_append, List.length_singleton] at hlen
  obtain ⟨component, hcreate, hnil, hpos⟩ : ∃ component : ArrayList (Option ℕ),
      ArrayList.create 4 Allocator.always = (some component, Allocator.always) ∧
        component.items = [] ∧ 0 < component.capacity :=
    ⟨_, ArrayList.create_always (by norm_num) (by decide), rfl, by norm_num⟩
  have hitems := h.stack
  rw [hstack] at hitems
  have hsize : seg.length < st.stack.size := by
    rw [ArrayStack.size, ArrayList.size, hitems, List.length_reverse, List.length_append,
      List.length_cons]
    omega
  obtain ⟨stack, onStack, component', hpop, hstack', hcap, hon, hcomponent⟩ :=
    popComponent_spec hptrs hsize h.allocator hvseg hmem hitems hpos
      (by rw [hnil, List.length_nil]; omega)
  rw [hnil, List.nil_append] at hcomponent
  have hroom : st.outComponents.items.length < intMax := by
    have hcomps := congrArg List.length h.outComponents
    have hlength : (S.cut (seg ++ [v]) rest).comps.length = S.comps.length + 1 := by
      simp [Search.cut]
    rw [List.length_map, List.length_map] at hcomps
    omega
  obtain ⟨out, hinsert, hout, houtcap⟩ :=
    ArrayList.append_always h.outComponents_pos hroom component'
  have hpop' : popComponent g v st.stack.size { st with allocator := Allocator.always } component =
      ({ st with stack := stack, onStack := onStack }, component') := by
    rw [← hpop, ← h.allocator]
  rw [TarjanState.finish]
  rw [if_pos heq, h.allocator, hcreate]
  dsimp only
  rw [hpop']
  dsimp only
  rw [h.allocator, hinsert]
  refine ⟨⟨rfl, h.counter, h.index_of_mem, h.index_of_notMem, h.counter_nonneg, h.number_nonneg,
    fun u => ?_, hstack', ?_, hcap ▸ h.stack_pos, houtcap, h.visited_subset⟩, rfl⟩
  · show onStack u = true ↔ u ∈ rest
    rw [hon, h.onStack, hstack]
    simp only [List.mem_append, List.mem_cons, List.not_mem_nil, or_false]
    constructor
    · rintro ⟨hu, hnot⟩
      tauto
    · intro hu
      refine ⟨.inr (.inr hu), ?_⟩
      rintro (hseg | rfl)
      · exact hdisjoint u hseg u (List.mem_cons_of_mem _ hu) rfl
      · exact (List.nodup_cons.mp hrest).1 hu
  · show out.items.map ArrayList.items = (S.comps ++ [seg ++ [v]]).map (List.map some)
    rw [hout, List.map_append, List.map_append, h.outComponents, List.map_singleton,
      List.map_singleton, hcomponent]

/-- **The end of a call**: the component of `v` is cut off when the low link of `v` is its index,
and otherwise the entries above `v` stay. -/
theorem finish_spec {S₀ : Search ℕ} (hwf : WellFormed g) (hptrs : HasPtrs g) (h : st.Shows g S)
    (hinv₀ : S₀.Inv (HasEdge g) path) (hinv : S.Inv (HasEdge g) (v :: path))
    (hnew : v ∉ S₀.visited) (hgrown : (S₀.enter v).Grown S)
    (hlow : S.LowLink (HasEdge g) v [] (st.lowlink v)) :
    ∃ S', (st.finish g v).Shows g S' ∧ S'.Inv (HasEdge g) path ∧
      S₀.Explored (HasEdge g) S' v (st.lowlink v) ∧ (st.finish g v).lowlink = st.lowlink := by
  have hv : v ∈ S.visited := hgrown.visited (Set.mem_insert _ _)
  have hindex := h.index_of_mem v hv
  have hnum : S.number v = S₀.counter := by
    rw [hgrown.number v (Set.mem_insert _ _), Search.enter_number_self]
  by_cases heq : st.lowlink v = S.number v
  · obtain ⟨seg, hstack, -⟩ := hgrown.stack
    have hcut := Search.LowLink.inv_cut (heq ▸ hlow) hinv hstack
    obtain ⟨hshows, hlowlink⟩ :=
      h.finish_cut hwf hptrs hinv hstack hcut (heq.trans hindex.symm)
    refine ⟨_, hshows, hcut, ?_, hlowlink⟩
    rw [heq, hnum]
    exact Search.explored_cut hinv₀ hnew hgrown (seg ++ [v])
  · have hlt : st.lowlink v < S.number v := lt_of_le_of_ne hlow.le heq
    obtain ⟨y, hy, hny, hreach⟩ := hlow.leads hlt
    rw [TarjanState.finish]
    rw [if_neg (hindex ▸ heq)]
    exact ⟨S, h, hinv.leave (fun w he => hlow.visited w he List.not_mem_nil) hy (hny ▸ hlt) hreach,
      hlow.explored_leave hinv₀ hnew hgrown, rfl⟩

/-! ## A call

The statement about a call is a definition, so that the loop over the edges can assume it of the
calls that are made there. -/

/-- What a call on `v` does. -/
def DfsSpec (g : GraphImpl) (dfs : TarjanState → ℕ → Option TarjanState) (room : ℕ) : Prop :=
  ∀ {st : TarjanState} {S : Search ℕ} {path : List ℕ} {v : ℕ}, st.Shows g S →
    S.Inv (HasEdge g) path → v ∈ g.vertices → v ∉ S.visited →
    (∀ x ∈ path, Relation.ReflTransGen (HasEdge g) x v) →
    (g.vertices.filter fun u => st.index u = -1).card ≤ room →
    ∃ st' S', dfs st v = some st' ∧ st'.Shows g S' ∧ S'.Inv (HasEdge g) path ∧
      S.Explored (HasEdge g) S' v (st'.lowlink v) ∧ ∀ u ∈ S.visited, st'.lowlink u = st.lowlink u

/-- The vertices still to be visited are fewer when more were visited. -/
theorem card_unvisited_le {st' : TarjanState} (h : st.Shows g S) (h' : st'.Shows g S')
    (hsub : S.visited ⊆ S'.visited) :
    (g.vertices.filter fun u => st'.index u = -1).card ≤
      (g.vertices.filter fun u => st.index u = -1).card := by
  refine Finset.card_le_card fun u hu => ?_
  rw [Finset.mem_filter, h'.index_eq_iff] at hu
  rw [Finset.mem_filter, h.index_eq_iff]
  exact ⟨hu.1, fun hmem => hu.2 (hsub hmem)⟩

/-- One edge out of `v`. -/
theorem followEdge_spec {dfs : TarjanState → ℕ → Option TarjanState} {room : ℕ}
    (hdfs : DfsSpec g dfs room) {e : ℕ × WithTop ℚ} {todo : List ℕ} (h : st.Shows g S)
    (hinv : S.Inv (HasEdge g) (v :: path))
    (hlow : S.LowLink (HasEdge g) v (e.1 :: todo) (st.lowlink v))
    (he : HasEdge g v e.1) (hroom : (g.vertices.filter fun u => st.index u = -1).card ≤ room) :
    ∃ st' S', followEdge dfs v st e = some st' ∧ st'.Shows g S' ∧
      S'.Inv (HasEdge g) (v :: path) ∧ S'.LowLink (HasEdge g) v todo (st'.lowlink v) ∧ S.Grown S' ∧
      ∀ u ∈ S.visited, u ≠ v → st'.lowlink u = st.lowlink u := by
  have hv : v ∈ S.stack := hinv.path_subset v List.mem_cons_self
  rw [followEdge]
  by_cases hnew : e.1 ∉ S.visited
  · rw [if_pos (h.index_eq_iff.mpr hnew)]
    obtain ⟨st₁, S₁, hcall, h₁, hinv₁, hexplored, hframe⟩ :=
      hdfs h hinv (hasEdge_cast.mp he).2.1 hnew (hinv.reaches_head he) hroom
    have hlow₁ := hlow.child hinv hv he hnew hexplored
    have hsame := hframe v (Search.mem_visited hinv hv)
    rw [hcall]
    dsimp only
    split
    · next hlt =>
      rw [hsame] at hlt
      rw [min_eq_right hlt.le] at hlow₁
      refine ⟨_, S₁, rfl, h₁.setLowlink v _, hinv₁, ?_, hexplored.grown, fun u hu huv => ?_⟩
      · rw [setLowlink_lowlink_self]
        exact hlow₁
      · rw [setLowlink_lowlink_of_ne _ huv, hframe u hu]
    · next hlt =>
      rw [hsame] at hlt
      rw [min_eq_left (not_lt.mp hlt), ← hsame] at hlow₁
      exact ⟨_, S₁, rfl, h₁, hinv₁, hlow₁, hexplored.grown, fun u hu _ => hframe u hu⟩
  · have hvisited := not_not.mp hnew
    rw [if_neg (mt h.index_eq_iff.mp hnew), h.index_of_mem _ hvisited]
    split
    · next hlt =>
      refine ⟨_, S, rfl, h.setLowlink v _, hinv, ?_, .refl S, fun u _ huv => ?_⟩
      · rw [setLowlink_lowlink_self]
        exact hlow.lower he ((h.onStack e.1).mp hlt.1) hvisited hlt.2
      · rw [setLowlink_lowlink_of_ne _ huv]
    · next hlt =>
      exact ⟨_, S, rfl, h, hinv, hlow.skip hvisited fun hmem => not_lt.mp fun hcase =>
        hlt ⟨(h.onStack e.1).mpr hmem, hcase⟩, .refl S, fun u _ _ => rfl⟩

/-- The loop over the edges out of `v`, by induction on the edges still to come. -/
theorem foldlM_followEdge_spec {dfs : TarjanState → ℕ → Option TarjanState} {room : ℕ}
    (hdfs : DfsSpec g dfs room) : ∀ {es : List (ℕ × WithTop ℚ)} {st : TarjanState} {S : Search ℕ},
      st.Shows g S → S.Inv (HasEdge g) (v :: path) →
      S.LowLink (HasEdge g) v (es.map Prod.fst) (st.lowlink v) → (∀ e ∈ es, HasEdge g v e.1) →
      (g.vertices.filter fun u => st.index u = -1).card ≤ room →
      ∃ st' S', es.foldlM (followEdge dfs v) st = some st' ∧ st'.Shows g S' ∧
        S'.Inv (HasEdge g) (v :: path) ∧ S'.LowLink (HasEdge g) v [] (st'.lowlink v) ∧ S.Grown S' ∧
        ∀ u ∈ S.visited, u ≠ v → st'.lowlink u = st.lowlink u := by
  intro es
  induction es with
  | nil =>
    intro st S h hinv hlow _ _
    exact ⟨st, S, rfl, h, hinv, hlow, .refl S, fun u _ _ => rfl⟩
  | cons e es ih =>
    intro st S h hinv hlow hes hroom
    obtain ⟨st₁, S₁, hstep, h₁, hinv₁, hlow₁, hgrown₁, hframe₁⟩ :=
      followEdge_spec hdfs h hinv hlow (hes e List.mem_cons_self) hroom
    obtain ⟨st₂, S₂, hloop, h₂, hinv₂, hlow₂, hgrown₂, hframe₂⟩ :=
      ih h₁ hinv₁ hlow₁ (fun e' he' => hes e' (List.mem_cons_of_mem _ he'))
        ((card_unvisited_le h h₁ hgrown₁.visited).trans hroom)
    refine ⟨st₂, S₂, ?_, h₂, hinv₂, hlow₂, hgrown₁.trans hgrown₂, fun u hu huv => ?_⟩
    · rw [List.foldlM_cons, hstep]
      exact hloop
    · rw [hframe₂ u (hgrown₁.visited hu) huv, hframe₁ u hu huv]

end TarjanState

open TarjanState

variable {g : GraphImpl}

/-- **A call of `tarjan_dfs`**, by induction on the fuel: every call visits a vertex, so fuel for
as many calls as there are unvisited vertices is enough. -/
theorem tarjanDfs_spec (hwf : WellFormed g) (hptrs : HasPtrs g) :
    ∀ fuel, DfsSpec g (g.tarjanDfs fuel) fuel := by
  intro fuel
  induction fuel with
  | zero =>
    intro st S path v h _ hv hnew _ hroom
    have hmem : v ∈ g.vertices.filter fun u => st.index u = -1 :=
      Finset.mem_filter.mpr ⟨hv, h.index_eq_iff.mpr hnew⟩
    exact absurd (Finset.card_pos.mpr ⟨v, hmem⟩) (by omega)
  | succ fuel ih =>
    intro st S path v h hinv hv hnew hpath hroom
    obtain ⟨hvisit, hlowv, hframe⟩ := h.visit hwf hinv hv hnew
    have hinv₁ := hinv.enter hnew hpath
    have hedges : ∀ w, w ∈ (g.outEdges v).map Prod.fst ↔ HasEdge g v w :=
      fun w => mem_outEdges_fst hwf hv
    have hlow := Search.LowLink.start hinv₁ fun w => (hedges w).mpr
    rw [← hlowv] at hlow
    have hroom₁ : (g.vertices.filter fun u => (st.visit v).index u = -1).card ≤ fuel := by
      have hlt : (g.vertices.filter fun u => (st.visit v).index u = -1).card <
          (g.vertices.filter fun u => st.index u = -1).card := by
        refine Finset.card_lt_card
          (Finset.ssubset_iff_of_subset (fun u hu => ?_) |>.mpr ⟨v, ?_, ?_⟩)
        · rw [Finset.mem_filter, hvisit.index_eq_iff] at hu
          rw [Finset.mem_filter, h.index_eq_iff]
          exact ⟨hu.1, fun hmem => hu.2 (Set.mem_insert_of_mem _ hmem)⟩
        · exact Finset.mem_filter.mpr ⟨hv, h.index_eq_iff.mpr hnew⟩
        · rw [Finset.mem_filter, hvisit.index_eq_iff]
          exact fun hmem => hmem.2 (Set.mem_insert _ _)
      omega
    obtain ⟨st₁, S₁, hloop, h₁, hinv₂, hlow₁, hgrown, hframe₁⟩ :=
      foldlM_followEdge_spec ih hvisit hinv₁ hlow
        (fun e he => (hedges e.1).mp (List.mem_map_of_mem he)) hroom₁
    obtain ⟨S₂, h₂, hinv₃, hexplored, hlowlink⟩ :=
      finish_spec hwf hptrs h₁ hinv hinv₂ hnew hgrown hlow₁
    refine ⟨_, S₂, ?_, h₂, hinv₃, hlowlink ▸ hexplored, fun u hu => ?_⟩
    · rw [GraphImpl.tarjanDfs, hloop]
    · have huv : u ≠ v := by
        rintro rfl
        exact hnew hu
      rw [hlowlink, hframe₁ u (Set.mem_insert_of_mem _ hu) huv, hframe u hu]

/-! ## The loop over the vertices -/

/-- The vertices that the loop has come to are visited. -/
theorem foldlM_tarjanRoot_spec (hwf : WellFormed g) (hptrs : HasPtrs g) {fuel : ℕ}
    (hfuel : g.vertexCount ≤ fuel) : ∀ (vs : List ℕ) {st : TarjanState} {S : Search ℕ},
      st.Shows g S → S.Inv (HasEdge g) [] →
      ∃ st' S', vs.foldlM (g.tarjanRoot fuel) st = some st' ∧ st'.Shows g S' ∧
        S'.Inv (HasEdge g) [] ∧ S.visited ⊆ S'.visited ∧
        ∀ v ∈ vs, v ∈ g.vertices → v ∈ S'.visited := by
  intro vs
  induction vs with
  | nil => exact fun {st S} h hinv => ⟨st, S, rfl, h, hinv, subset_rfl, by simp⟩
  | cons v vs ih =>
    intro st S h hinv
    obtain ⟨st₁, S₁, hstep, h₁, hinv₁, hsub, hv⟩ : ∃ st₁ S₁, g.tarjanRoot fuel st v = some st₁ ∧
        st₁.Shows g S₁ ∧ S₁.Inv (HasEdge g) [] ∧ S.visited ⊆ S₁.visited ∧
        (v ∈ g.vertices → v ∈ S₁.visited) := by
      rw [GraphImpl.tarjanRoot]
      split
      · next hskip =>
        refine ⟨st, S, rfl, h, hinv, subset_rfl, fun hv => ?_⟩
        rw [GraphImpl.isValidVertex_cast.mpr hv, Ne, h.index_eq_iff, not_not] at hskip
        exact hskip.resolve_left (by simp)
      · next hnot =>
        obtain ⟨hvalid, hindex⟩ := not_or.mp hnot
        have hmem : v ∈ g.vertices := GraphImpl.isValidVertex_cast.mp (by simpa using hvalid)
        have hroom : (g.vertices.filter fun u => st.index u = -1).card ≤ fuel :=
          (Finset.card_filter_le _ _).trans (hwf.count ▸ hfuel)
        obtain ⟨st₁, S₁, hcall, h₁, hinv₁, hexplored, -⟩ :=
          tarjanDfs_spec hwf hptrs fuel h hinv hmem
          (h.index_eq_iff.mp (not_not.mp hindex)) (by simp) hroom
        exact ⟨st₁, S₁, hcall, h₁, hinv₁, hexplored.grown.visited, fun _ => hexplored.visited⟩
    obtain ⟨st₂, S₂, hloop, h₂, hinv₂, hsub₂, hvs⟩ := ih h₁ hinv₁
    refine ⟨st₂, S₂, ?_, h₂, hinv₂, hsub.trans hsub₂, fun u hu humem => ?_⟩
    · rw [List.foldlM_cons, hstep]
      exact hloop
    · rcases List.mem_cons.mp hu with rfl | hu
      · exact hsub₂ (hv humem)
      · exact hvs u hu humem

theorem tarjanInit_always (g : GraphImpl) :
    ∃ st, GraphImpl.tarjanInit Allocator.always = some st ∧ st.Shows g (Search.start ℕ) := by
  obtain ⟨stack, hstack, hnil, hpos⟩ := ArrayStack.create_always (α := ℕ)
  obtain ⟨components, hcomponents, hnil', hpos'⟩ :
      ∃ components : ArrayList (ArrayList (Option ℕ)),
        ArrayList.create 4 Allocator.always = (some components, Allocator.always) ∧
          components.items = [] ∧ 0 < components.capacity :=
    ⟨_, ArrayList.create_always (by norm_num) (by decide), rfl, by norm_num⟩
  simp only [GraphImpl.tarjanInit, hcomponents, Allocator.alloc_always, hstack, Bool.not_true,
    Bool.or_self, Bool.false_eq_true, if_false, Option.some.injEq, exists_eq_left']
  refine ⟨rfl, rfl, fun v hv => absurd hv (by simp [Search.start]), fun v _ => rfl, le_refl _,
    fun v hv => absurd hv (by simp [Search.start]), fun v => by simp [Search.start], hnil, ?_, hpos,
    hpos', fun v hv => absurd hv (by simp [Search.start])⟩
  show components.items.map ArrayList.items = _
  rw [hnil']
  rfl

/-- **The strongly connected components.** With allocations succeeding the call returns, and the
lists it returns are those of the pointers to the vertices of each component: every vertex is in
one component once, two vertices share a component exactly when each is reachable from the other,
and no edge leads from a component to a later one. -/
theorem stronglyConnectedComponents_correct (hg : Built g) (hdirected : g.type = .directed)
    {fuel : ℕ} (hfuel : g.vertexCount ≤ fuel) :
    ∃ out comps, g.stronglyConnectedComponents fuel Allocator.always = some (some out) ∧
      out.items.map ArrayList.items = comps.map (List.map some) ∧
      IsComponents (HasEdge g) g.vertices comps := by
  obtain ⟨st, hinit, hst⟩ := tarjanInit_always g
  obtain ⟨st', S, hloop, h, hinv, -, hall⟩ :=
    foldlM_tarjanRoot_spec hg.wellFormed hg.hasPtrs hfuel (List.range g.vertexCapacity) hst
      (Search.inv_start _)
  have hvisited : S.visited = g.vertices := by
    refine Set.Subset.antisymm h.visited_subset fun v hv => ?_
    exact hall v (List.mem_range.mpr (GraphImpl.mem_vertices.mp hv).1) hv
  refine ⟨st'.outComponents, S.comps, ?_, h.outComponents, hvisited ▸ hinv.isComponents⟩
  rw [GraphImpl.stronglyConnectedComponents]
  rw [if_neg (not_not.mpr hdirected), hinit]
  dsimp only
  rw [hloop]

theorem stronglyConnectedComponents_correct_cycle :
    ∃ g, build (fun _ => 0) .directed .adjacencyMatrix .bfs .dijkstra Allocator.always
        [.addEdge 0 1 1, .addEdge 1 0 1, .addEdge 1 20 1] = some (g, Allocator.always) ∧
      ∃ out comps, g.stronglyConnectedComponents g.vertexCount Allocator.always = some (some out) ∧
        out.items.map ArrayList.items = comps.map (List.map some) ∧
        IsComponents (HasEdge g) g.vertices comps := by
  have hscope : ∀ c ∈ [Call.addEdge 0 1 1, .addEdge 1 0 1, .addEdge 1 20 1], c.InScope := by decide
  obtain ⟨g, hg, hrepr, -⟩ :=
    build_represents (fun _ => 0) .directed .adjacencyMatrix .bfs .dijkstra hscope
  have hdirected : g.type = .directed := hrepr.type_eq.trans (AbstractGraph.ofCalls_type _ _)
  exact ⟨g, hg, stronglyConnectedComponents_correct ⟨_, _, _, _, _, _, _, _, hg⟩ hdirected
    (le_refl _)⟩

end Graph

end OvaLib
