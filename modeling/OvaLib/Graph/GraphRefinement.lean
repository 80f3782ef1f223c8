import Mathlib.Data.Set.Card
import OvaLib.Graph.EdgeList
import OvaLib.Graph.Growth

/-!
# Graphs as finite maps

The abstract graph: a finite set of vertices and a map from ordered pairs of them to weights, with
`⊤` for the pairs that are not bound. The two representations are two ways to store such a map, and
each call does to what is stored what it says it does to the map.

## The relation

`Represents g A` says of every field of `graph_impl` what it holds if `A` is meant. The vertices are
those whose `present` flag is set; each of them is below the capacity and has its pointer; the count
is their number. The weights are stored once, in the lists or in the matrix, and `Stored` is the
only part of the relation that depends on the representation. In the lists of a vertex the order of
the edges is free, so one abstract graph has many list graphs; its matrix graph is determined up to
the cells of ids that are no vertices.

The relation is kept by every call that changes a graph. For the calls that ask, it gives the
answer: `Observes` collects these. Two graphs that represent the same abstract graph then give the
same answers, whatever their representations and histories.

## Scope

With allocations succeeding. The ids are non-negative and below 32768 where a matrix is concerned;
beyond that the index of a cell is not an `int`, and the matrix graph is no map any more. A list
graph needs ids up to `2 ^ 30` only, and `build_represents_below` says so, since the algorithms are
about list graphs too.

Neighbours are compared as sets. The two representations return them in different orders, the lists
by insertion and the matrix by id, and `graph.h` promises neither.

## Main results

* `ensureCapacity_represents` — growing changes nothing that is represented
* `Call.run_represents` — one call, in either representation
* `graph_refines_map` — the two graphs that the same calls build represent the same abstract graph
-/

namespace OvaLib

namespace Graph

open Foundation (Lists support)
open GraphImpl (Edges)

/-! ## The abstract graph

An undirected graph binds both orders of a pair, so the map is the same kind of thing for both
types of graph, and symmetry is a property of the maps that calls lead to. -/

/-- What a graph is for: vertices, and the weights of the ordered pairs that are edges. -/
structure AbstractGraph where
  type : GraphType
  vertices : Finset ℕ
  /-- The weight of an ordered pair, `⊤` for a pair that is no edge. -/
  weight : ℕ × ℕ → WithTop ℚ

namespace AbstractGraph

/-- The graph without vertices. -/
def empty (type : GraphType) : AbstractGraph := ⟨type, ∅, fun _ => ⊤⟩

/-- A vertex added. -/
def addVertex (A : AbstractGraph) (v : ℕ) : AbstractGraph :=
  { A with vertices := insert v A.vertices }

/-- One ordered pair rebound. -/
def bind (A : AbstractGraph) (u v : ℕ) (w : WithTop ℚ) : AbstractGraph :=
  { A with weight := Function.update A.weight (u, v) w }

/-- An edge rebound: the pair, and in an undirected graph its reverse. A self loop is one pair in
either type of graph. -/
def setEdge (A : AbstractGraph) (u v : ℕ) (w : WithTop ℚ) : AbstractGraph :=
  if A.type = .undirected ∧ u ≠ v then (A.bind u v w).bind v u w else A.bind u v w

/-- What a call does. Removing an edge does not add its ends, and an edge that is added twice has
the weight of the second call. -/
def apply (A : AbstractGraph) : Call → AbstractGraph
  | .addVertex v => A.addVertex v.toNat
  | .addEdge u v w => ((A.addVertex u.toNat).addVertex v.toNat).setEdge u.toNat v.toNat w
  | .removeEdge u v => A.setEdge u.toNat v.toNat ⊤

/-- What a list of calls does to the graph without vertices. -/
def ofCalls (type : GraphType) (calls : List Call) : AbstractGraph :=
  calls.foldl apply (empty type)

@[simp] theorem addVertex_type (A : AbstractGraph) (v : ℕ) : (A.addVertex v).type = A.type := rfl

@[simp] theorem bind_vertices (A : AbstractGraph) (u v : ℕ) (w : WithTop ℚ) :
    (A.bind u v w).vertices = A.vertices := rfl

@[simp] theorem bind_self (A : AbstractGraph) (u v : ℕ) (w : WithTop ℚ) :
    (A.bind u v w).weight (u, v) = w := Function.update_self _ _ _

theorem bind_of_ne (A : AbstractGraph) {u v : ℕ} {p : ℕ × ℕ} (hp : p ≠ (u, v)) (w : WithTop ℚ) :
    (A.bind u v w).weight p = A.weight p := Function.update_of_ne hp _ _

@[simp] theorem setEdge_vertices (A : AbstractGraph) (u v : ℕ) (w : WithTop ℚ) :
    (A.setEdge u v w).vertices = A.vertices := by
  rw [setEdge]
  split <;> rfl

@[simp] theorem setEdge_type (A : AbstractGraph) (u v : ℕ) (w : WithTop ℚ) :
    (A.setEdge u v w).type = A.type := by
  rw [setEdge]
  split <;> rfl

/-- Unbinding a pair that is not bound changes nothing. -/
theorem bind_top {A : AbstractGraph} {u v : ℕ} (h : A.weight (u, v) = ⊤) : A.bind u v ⊤ = A := by
  rw [bind]
  rw [Function.update_eq_self_iff.mpr h.symm]

theorem setEdge_top {A : AbstractGraph} {u v : ℕ} (h : A.weight (u, v) = ⊤)
    (h' : A.weight (v, u) = ⊤) : A.setEdge u v ⊤ = A := by
  rw [setEdge]
  split
  · rw [bind_top h, bind_top h']
  · exact bind_top h

theorem apply_type (A : AbstractGraph) (c : Call) : (A.apply c).type = A.type := by
  cases c <;> simp [apply]

theorem ofCalls_type (type : GraphType) (calls : List Call) : (ofCalls type calls).type = type := by
  rw [ofCalls]
  induction calls using List.reverseRecOn with
  | nil => rfl
  | append_singleton calls c ih =>
    rw [List.foldl_append, List.foldl_cons, List.foldl_nil, apply_type]
    exact ih

/-- The weights of an undirected graph are symmetric. -/
def Symmetric (A : AbstractGraph) : Prop :=
  A.type = .undirected → ∀ u v, A.weight (u, v) = A.weight (v, u)

theorem Symmetric.setEdge {A : AbstractGraph} (h : A.Symmetric) (u v : ℕ) (w : WithTop ℚ) :
    (A.setEdge u v w).Symmetric := by
  intro htype x y
  rw [setEdge_type] at htype
  have hsymm := h htype x y
  rw [AbstractGraph.setEdge]
  by_cases huv : u = v
  · subst huv
    simp only [htype, ne_eq, not_true_eq_false, and_false, if_false, bind, Function.update_apply,
      Prod.mk.injEq, and_comm (a := x = u), hsymm]
  · simp only [htype, ne_eq, huv, not_false_eq_true, and_self, if_true, bind,
      Function.update_apply, Prod.mk.injEq, hsymm]
    grind

theorem symmetric_ofCalls (type : GraphType) (calls : List Call) :
    (ofCalls type calls).Symmetric := by
  rw [ofCalls]
  induction calls using List.reverseRecOn with
  | nil => exact fun _ _ _ => rfl
  | append_singleton calls c ih =>
    rw [List.foldl_append, List.foldl_cons, List.foldl_nil]
    cases c with
    | addVertex v => exact ih
    | addEdge u v w =>
      exact Symmetric.setEdge (A := (AbstractGraph.addVertex _ _).addVertex _) ih _ _ _
    | removeEdge u v => exact ih.setEdge _ _ _

end AbstractGraph

/-! ## The relation -/

/-- The edges from a vertex. -/
def row (weight : ℕ × ℕ → WithTop ℚ) (u v : ℕ) : Option (WithTop ℚ) :=
  if weight (u, v) = ⊤ then none else some (weight (u, v))

theorem row_getD (weight : ℕ × ℕ → WithTop ℚ) (u v : ℕ) :
    (row weight u v).getD ⊤ = weight (u, v) := by
  rw [row]
  split
  · next h => exact h.symm
  · rfl

theorem isSome_row (weight : ℕ × ℕ → WithTop ℚ) (u v : ℕ) :
    (row weight u v).isSome = true ↔ weight (u, v) ≠ ⊤ := by
  rw [row]
  split
  · next h => simp [h]
  · next h => simp [h]

/-- The adjacency lists store the weights: there is one for each vertex, with an entry for each pair
that is an edge. Ids that are no vertices have no list. -/
structure StoredInLists (g : GraphImpl) (A : AbstractGraph) : Prop where
  isSome_iff : ∀ u, (g.adjLists u).isSome = true ↔ u ∈ A.vertices
  edges : ∀ u adj, g.adjLists u = some adj → 0 < adj.capacity ∧ Edges adj (row A.weight u)

/-- The matrix stores the weights. -/
def StoredInMatrix (g : GraphImpl) (A : AbstractGraph) : Prop :=
  ∀ u v, u < g.vertexCapacity → v < g.vertexCapacity →
    g.adjMatrix ((u * g.vertexCapacity + v : ℕ) : ℤ) = A.weight (u, v)

/-- The weights are stored where the representation says. -/
def Stored (g : GraphImpl) (A : AbstractGraph) : Prop :=
  match g.rep with
  | .adjacencyList => StoredInLists g A
  | .adjacencyMatrix => StoredInMatrix g A

theorem stored_iff_lists {g : GraphImpl} {A : AbstractGraph} (hrep : g.rep = .adjacencyList) :
    Stored g A ↔ StoredInLists g A := by
  rw [Stored, hrep]

theorem stored_iff_matrix {g : GraphImpl} {A : AbstractGraph} (hrep : g.rep = .adjacencyMatrix) :
    Stored g A ↔ StoredInMatrix g A := by
  rw [Stored, hrep]

/-- How often a capacity of 1 can double. The vertices of a list graph have `int` ids; in a matrix
the indices of the cells are `int` as well, so that the vertices run out much earlier. -/
def GraphRepresentation.maxLog : GraphRepresentation → ℕ
  | .adjacencyList => 30
  | .adjacencyMatrix => 15

theorem GraphRepresentation.maxLog_bounds (rep : GraphRepresentation) :
    15 ≤ rep.maxLog ∧ rep.maxLog ≤ 30 := by
  cases rep <;> decide

/-- The graph represents an abstract graph. The capacity is a power of two, at least 8, because it
only ever doubles; this is what bounds the products of indices in a matrix. -/
structure Represents (g : GraphImpl) (A : AbstractGraph) : Prop where
  type_eq : g.type = A.type
  /-- The capacity of a new graph is 8, and it only doubles. -/
  capacity_eq : ∃ k, 3 ≤ k ∧ k ≤ g.rep.maxLog ∧ g.vertexCapacity = 2 ^ k
  present_iff : ∀ v, g.present v = true ↔ v ∈ A.vertices
  /-- The arrays have an entry for every vertex. -/
  lt_capacity : ∀ v ∈ A.vertices, v < g.vertexCapacity
  ptrs : ∀ v ∈ A.vertices, g.vertexPtrs v = some v
  count : g.vertexCount = A.vertices.card
  /-- An edge has two ends. -/
  bound : ∀ u v, A.weight (u, v) ≠ ⊤ → u ∈ A.vertices ∧ v ∈ A.vertices
  /-- The weights, in the one place or the other. -/
  stored : Stored g A

section Represents

variable {g : GraphImpl} {A : AbstractGraph} {u v : ℕ}

theorem Represents.capacity_le (h : Represents g A) : g.vertexCapacity ≤ 2 ^ g.rep.maxLog := by
  obtain ⟨k, -, hk, heq⟩ := h.capacity_eq
  rw [heq]
  exact Nat.pow_le_pow_right (by norm_num) hk

/-- The capacity of a matrix graph. -/
theorem Represents.capacity_le_matrix (h : Represents g A) (hrep : g.rep = .adjacencyMatrix) :
    g.vertexCapacity ≤ 32768 := by
  have hle := h.capacity_le
  rwa [hrep] at hle

theorem Represents.capacity_lt (h : Represents g A) : g.vertexCapacity < intMax := by
  have hle : 2 ^ g.rep.maxLog ≤ 2 ^ 30 :=
    Nat.pow_le_pow_right (by norm_num) g.rep.maxLog_bounds.2
  exact (h.capacity_le.trans hle).trans_lt (by decide)

theorem Represents.capacity_pos (h : Represents g A) : 0 < g.vertexCapacity := by
  obtain ⟨k, -, -, heq⟩ := h.capacity_eq
  rw [heq]
  exact Nat.pow_pos (by norm_num)

theorem Represents.weight_left (h : Represents g A) (hu : u ∉ A.vertices) :
    A.weight (u, v) = ⊤ := by
  by_contra hne
  exact hu (h.bound u v hne).1

theorem Represents.weight_right (h : Represents g A) (hv : v ∉ A.vertices) :
    A.weight (u, v) = ⊤ := by
  by_contra hne
  exact hv (h.bound u v hne).2

theorem Represents.hasVertex_iff (h : Represents g A) (x : ℤ) :
    g.hasVertex x = true ↔ 0 ≤ x ∧ x.toNat ∈ A.vertices := by
  rw [GraphImpl.hasVertex]
  split
  · next hout =>
    simp only [Bool.false_eq_true, false_iff, not_and]
    intro hx hmem
    have hlt := h.lt_capacity _ hmem
    omega
  · next hin =>
    rw [h.present_iff]
    exact ⟨fun hmem => ⟨by omega, hmem⟩, fun hmem => hmem.2⟩

/-- A list has at most as many edges as there are vertices. -/
theorem Represents.length_lt (h : Represents g A) {adj : ArrayList GraphEdge}
    (hadj : Edges adj (row A.weight u)) : adj.items.length < intMax := by
  have hsub : support (row A.weight u) ⊆ (A.vertices : Set ℕ) := by
    intro v hv
    exact (h.bound u v ((isSome_row _ _ _).mp hv)).2
  have hrange : A.vertices ⊆ Finset.range g.vertexCapacity := by
    intro v hv
    exact Finset.mem_range.mpr (h.lt_capacity v hv)
  have hcard : A.vertices.card ≤ g.vertexCapacity := by
    simpa using Finset.card_le_card hrange
  have hlen : adj.items.length ≤ A.vertices.card := by
    rw [← hadj.ncard_support, ← Set.ncard_coe_finset]
    exact Set.ncard_le_ncard hsub (Finset.finite_toSet _)
  exact (hlen.trans hcard).trans_lt h.capacity_lt

end Represents

/-! ## Growth

Every other operation begins with a growth that may do nothing, and is then about a graph whose
arrays have room for the ids it names. -/

section Growth

variable (junk : ℤ → WithTop ℚ) {g : GraphImpl} {A : AbstractGraph}

/-- The doubling loop, from a capacity of the graph to one that has room for an id. -/
theorem Represents.doubleUntil (h : Represents g A) {id : ℤ} (hid : id < 2 ^ g.rep.maxLog) :
    ∃ k, 3 ≤ k ∧ k ≤ g.rep.maxLog ∧ g.vertexCapacity ≤ 2 ^ k ∧ id + 1 ≤ 2 ^ k ∧
      GraphImpl.doubleUntil 64 g.vertexCapacity (id + 1) = some (2 ^ k) := by
  obtain ⟨k, hk3, hkmax, heq⟩ := h.capacity_eq
  have hbounds := g.rep.maxLog_bounds
  obtain ⟨j, hkj, hjmax, hreq, hj⟩ := GraphImpl.doubleUntil_pow hbounds.2
    (show id + 1 ≤ 2 ^ g.rep.maxLog by omega) hkmax (show g.rep.maxLog - k < 64 by omega)
  refine ⟨j, by omega, hjmax, ?_, hreq, ?_⟩
  · rw [heq]
    exact Nat.pow_le_pow_right (by norm_num) hkj
  · rw [heq, Nat.cast_pow]
    exact hj

/-- Growing moves every array and every row, and changes nothing that is represented. The new cells
of a matrix are infinite, which is what ids that are no vertices need. -/
theorem Represents.reallocate (h : Represents g A) {k : ℕ} (hk3 : 3 ≤ k) (hk : k ≤ g.rep.maxLog)
    (hle : g.vertexCapacity ≤ 2 ^ k) :
    ∃ g', g.reallocate junk (2 ^ k) Allocator.always = (g', Allocator.always) ∧
      Represents g' A ∧ g'.vertexCapacity = 2 ^ k ∧ g'.rep = g.rep := by
  have hpresent : ∀ v, (if v < g.vertexCapacity then g.present v else false) = true ↔
      v ∈ A.vertices := by
    intro v
    split
    · exact h.present_iff v
    · next hv => simpa using fun hmem => hv (h.lt_capacity v hmem)
  have hptrs : ∀ v ∈ A.vertices,
      (if v < g.vertexCapacity then g.vertexPtrs v else none) = some v := by
    intro v hv
    rw [if_pos (h.lt_capacity v hv), h.ptrs v hv]
  have hstored := h.stored
  rw [Stored] at hstored
  rw [GraphImpl.reallocate]
  simp only [Allocator.alloc_always, Bool.not_true, Bool.or_self, Bool.false_eq_true, if_false]
  cases hrep : g.rep with
  | adjacencyList =>
    rw [hrep] at hstored
    refine ⟨_, rfl, ⟨h.type_eq, ⟨k, hk3, hrep ▸ hk, rfl⟩, hpresent,
      fun v hv => (h.lt_capacity v hv).trans_le hle, hptrs, h.count, h.bound, ?_⟩, rfl, rfl⟩
    show StoredInLists _ A
    refine ⟨fun u => ?_, fun u adj hadj => ?_⟩
    · dsimp only
      split
      · exact hstored.isSome_iff u
      · next hu => simpa using fun hmem => hu (h.lt_capacity u hmem)
    · dsimp only at hadj
      split at hadj
      · exact hstored.edges u adj hadj
      · exact absurd hadj (by simp)
  | adjacencyMatrix =>
    rw [hrep] at hstored
    refine ⟨_, rfl, ⟨h.type_eq, ⟨k, hk3, hrep ▸ hk, rfl⟩, hpresent,
      fun v hv => (h.lt_capacity v hv).trans_le hle, hptrs, h.count, h.bound, ?_⟩, rfl, rfl⟩
    show StoredInMatrix _ A
    intro u v hu hv
    have hcap : 2 ^ k ≤ 2 ^ 15 := Nat.pow_le_pow_right (by norm_num) (by rwa [hrep] at hk)
    dsimp only at hu hv ⊢
    rw [GraphImpl.copyRows_apply junk hle hcap hu hv le_rfl]
    split
    · next hin => exact hstored u v hin.1 hin.2
    · next hout =>
      rcases not_and_or.mp hout with hu' | hv'
      · exact (h.weight_left fun hmem => hu' (h.lt_capacity u hmem)).symm
      · exact (h.weight_right fun hmem => hv' (h.lt_capacity v hmem)).symm

/-- `graph_ensure_capacity` changes nothing that is represented. -/
theorem ensureCapacity_represents (h : Represents g A) {id : ℤ} (hid : 0 ≤ id)
    (hid' : id < 2 ^ g.rep.maxLog) :
    ∃ g', g.ensureCapacity junk id Allocator.always = some (g', Allocator.always) ∧
      Represents g' A ∧ id < g'.vertexCapacity ∧ g'.rep = g.rep := by
  rw [GraphImpl.ensureCapacity]
  have hmax : (2 : ℤ) ^ g.rep.maxLog ≤ 2 ^ 30 :=
    pow_le_pow_right₀ (by norm_num) g.rep.maxLog_bounds.2
  rw [if_neg (by omega), int32_eq (n := id + 1) (by omega) (by omega)]
  dsimp only
  split
  · next hle => exact ⟨g, rfl, h, by omega, rfl⟩
  · rw [if_pos h.capacity_pos]
    obtain ⟨k, hk3, hkmax, hle, hroom, hk⟩ := h.doubleUntil hid'
    obtain ⟨g', hg', hrep', hcap', hsame⟩ := h.reallocate junk hk3 hkmax hle
    have hnat : ((2 : ℤ) ^ k).toNat = 2 ^ k := by
      rw [← Nat.cast_ofNat, ← Nat.cast_pow, Int.toNat_natCast]
    refine ⟨g', ?_, hrep', ?_, hsame⟩
    · rw [hk]
      simp only [hnat, hg']
    · rw [hcap', Nat.cast_pow, Nat.cast_ofNat]
      omega

end Growth

/-! ## Vertices -/

section Vertices

variable (junk : ℤ → WithTop ℚ) {g : GraphImpl} {A : AbstractGraph}

/-- A vertex that is already there. -/
theorem AbstractGraph.addVertex_of_mem {v : ℕ} (hv : v ∈ A.vertices) : A.addVertex v = A := by
  rw [AbstractGraph.addVertex]
  rw [Finset.insert_eq_of_mem hv]

/-- A new vertex has an empty list. -/
theorem StoredInLists.addVertex (hg : StoredInLists g A) (h : Represents g A) {v : ℕ}
    (hnew : v ∉ A.vertices) {g' : GraphImpl} {new : ArrayList GraphEdge}
    (hlists : g'.adjLists = Function.update g.adjLists v (some new)) (hnil : new.items = [])
    (hpos : 0 < new.capacity) : StoredInLists g' (A.addVertex v) := by
  refine ⟨fun u => ?_, fun u adj hadj => ?_⟩
  · show _ ↔ u ∈ insert v A.vertices
    rw [hlists, Function.update_apply, Finset.mem_insert, ← hg.isSome_iff]
    split <;> simp_all
  · rw [hlists] at hadj
    by_cases huv : u = v
    · subst huv
      rw [Function.update_self] at hadj
      obtain rfl := Option.some.inj hadj
      have hrow : row A.weight u = fun _ => none := by
        funext x
        rw [row, if_pos (h.weight_left hnew)]
      refine ⟨hpos, ?_⟩
      show Lists _ _ new.items (row A.weight u)
      rw [hrow, hnil]
      exact Lists.nil
    · rw [Function.update_of_ne huv] at hadj
      exact hg.edges u adj hadj

/-- Marking a vertex. -/
theorem update_true_iff (marks : ℕ → Bool) (v u : ℕ) :
    Function.update marks v true u = true ↔ u = v ∨ marks u = true := by
  by_cases huv : u = v
  · rw [huv, Function.update_self]
    exact iff_of_true rfl (.inl rfl)
  · rw [Function.update_of_ne huv, or_iff_right huv]

/-- A new vertex has no edges yet: its list is empty, and the cells of its row and its column in a
matrix are infinite, as those of all ids are that are no vertices. -/
theorem Represents.enterVertex (h : Represents g A) {v : ℕ} (hv : v < g.vertexCapacity)
    (hnew : v ∉ A.vertices) :
    ∃ g', g.enterVertex v Allocator.always = (g', Allocator.always) ∧
      Represents g' (A.addVertex v) ∧ g'.rep = g.rep := by
  have hpresent : ∀ u, Function.update g.present v true u = true ↔ u ∈ insert v A.vertices := by
    intro u
    rw [update_true_iff, Finset.mem_insert, h.present_iff]
  have hlt : ∀ u ∈ insert v A.vertices, u < g.vertexCapacity := by
    intro u hu
    rcases Finset.mem_insert.mp hu with rfl | hu
    · exact hv
    · exact h.lt_capacity u hu
  have hptrs : ∀ u ∈ insert v A.vertices, Function.update g.vertexPtrs v (some v) u = some u := by
    intro u hu
    rcases Finset.mem_insert.mp hu with rfl | hu
    · exact Function.update_self _ _ _
    · have hne : u ≠ v := fun heq => hnew (heq ▸ hu)
      rw [Function.update_of_ne hne, h.ptrs u hu]
  have hcount : g.vertexCount + 1 = (insert v A.vertices).card := by
    rw [Finset.card_insert_of_notMem hnew, h.count]
  have hbound : ∀ x y, A.weight (x, y) ≠ ⊤ →
      x ∈ insert v A.vertices ∧ y ∈ insert v A.vertices := fun x y hxy =>
    ⟨Finset.mem_insert_of_mem (h.bound x y hxy).1, Finset.mem_insert_of_mem (h.bound x y hxy).2⟩
  have hcapacity := h.capacity_eq
  have hstored := h.stored
  rw [Stored] at hstored
  rw [GraphImpl.enterVertex]
  simp only [Allocator.alloc_always, Bool.not_true, Bool.false_eq_true, if_false]
  cases hrep : g.rep with
  | adjacencyList =>
    rw [hrep] at hstored hcapacity
    have hnone : g.adjLists v = none := by
      rw [← Option.not_isSome_iff_eq_none, hstored.isSome_iff]
      exact hnew
    simp only [hnone, Option.isNone_none, and_self, if_true,
      ArrayList.create_always (α := GraphEdge) (n := 4) (by norm_num) (by decide)]
    refine ⟨_, rfl, ⟨h.type_eq, hcapacity, hpresent, hlt, hptrs, hcount, hbound, ?_⟩, rfl⟩
    simp only [Stored]
    exact hstored.addVertex h hnew rfl rfl (by decide)
  | adjacencyMatrix =>
    rw [hrep] at hstored hcapacity
    simp only [reduceCtorEq, false_and, if_false]
    refine ⟨_, rfl, ⟨h.type_eq, hcapacity, hpresent, hlt, hptrs, hcount, hbound, ?_⟩, rfl⟩
    simp only [Stored]
    exact hstored

/-- `graph_add_vertex_impl` adds the vertex. -/
theorem addVertex_represents (h : Represents g A) {id : ℤ} (hid : 0 ≤ id)
    (hid' : id < 2 ^ g.rep.maxLog) :
    ∃ g', g.addVertex junk id Allocator.always = some (g', Allocator.always) ∧
      Represents g' (A.addVertex id.toNat) ∧ g'.rep = g.rep := by
  obtain ⟨g', hg', hrep, hroom, hsame⟩ := ensureCapacity_represents junk h hid hid'
  rw [GraphImpl.addVertex]
  rw [if_neg (by omega), hg']
  dsimp only
  split
  · next hin =>
    have hmem : id.toNat ∈ A.vertices := by
      rcases hin with hout | hin
      · omega
      · exact (hrep.present_iff _).mp hin
    exact ⟨g', rfl, by rwa [AbstractGraph.addVertex_of_mem hmem], hsame⟩
  · next hout =>
    obtain ⟨-, hnot⟩ := not_or.mp hout
    obtain ⟨g'', hg'', hrep'', hsame''⟩ := hrep.enterVertex (v := id.toNat) (by omega)
      (fun hmem => hnot ((hrep.present_iff _).mpr hmem))
    exact ⟨g'', by rw [hg''], hrep'', hsame''.trans hsame⟩

end Vertices

/-! ## Edges

In the lists, an edge is found by a scan for its head; the scan stops at the first hit, which is the
only one, because the heads in a list are distinct. -/

section Edges

variable (junk : ℤ → WithTop ℚ) {g : GraphImpl} {A : AbstractGraph} {u v : ℕ}

theorem row_bind_self (w : WithTop ℚ) (hw : w ≠ ⊤) :
    row (A.bind u v w).weight u = Function.update (row A.weight u) v (some w) := by
  funext x
  by_cases hx : x = v
  · subst hx
    simp [row, AbstractGraph.bind, hw]
  · simp [row, AbstractGraph.bind, hx]

theorem row_bind_top : row (A.bind u v ⊤).weight u = Function.update (row A.weight u) v none := by
  funext x
  by_cases hx : x = v
  · subst hx
    simp [row, AbstractGraph.bind]
  · simp [row, AbstractGraph.bind, hx]

theorem row_bind_of_ne {x : ℕ} (hx : x ≠ u) (w : WithTop ℚ) :
    row (A.bind u v w).weight x = row A.weight x := by
  funext y
  simp [row, AbstractGraph.bind, hx]

/-- The list of one vertex replaced by the list of its edges in another graph. -/
theorem StoredInLists.setAdjList (hg : StoredInLists g A) {new : ArrayList GraphEdge}
    (hu : u ∈ A.vertices) (hpos : 0 < new.capacity) {w : WithTop ℚ}
    (hnew : Edges new (row (A.bind u v w).weight u)) :
    StoredInLists (g.setAdjList u new) (A.bind u v w) := by
  refine ⟨fun x => ?_, fun x adj hadj => ?_⟩
  · show (Function.update g.adjLists u (some new) x).isSome = true ↔ x ∈ A.vertices
    rw [Function.update_apply, ← hg.isSome_iff]
    split
    · next hx =>
      subst hx
      simp [(hg.isSome_iff x).mpr hu]
    · rfl
  · have hadj' : Function.update g.adjLists u (some new) x = some adj := hadj
    by_cases hx : x = u
    · subst hx
      rw [Function.update_self] at hadj'
      obtain rfl := Option.some.inj hadj'
      exact ⟨hpos, hnew⟩
    · rw [Function.update_of_ne hx] at hadj'
      rw [row_bind_of_ne hx]
      exact hg.edges x adj hadj'

/-- A change of the stored weights alone: the vertices are as before. -/
theorem Represents.of_stored (h : Represents g A) (hu : u ∈ A.vertices) (hv : v ∈ A.vertices)
    {w : WithTop ℚ} {g' : GraphImpl} (htype : g'.type = g.type) (hrep : g'.rep = g.rep)
    (hcap : g'.vertexCapacity = g.vertexCapacity) (hpresent : g'.present = g.present)
    (hptrs : g'.vertexPtrs = g.vertexPtrs) (hcount : g'.vertexCount = g.vertexCount)
    (hstored : Stored g' (A.bind u v w)) : Represents g' (A.bind u v w) where
  type_eq := htype.trans h.type_eq
  capacity_eq := by
    rw [hcap, hrep]
    exact h.capacity_eq
  present_iff := hpresent ▸ h.present_iff
  lt_capacity := hcap ▸ h.lt_capacity
  ptrs := hptrs ▸ h.ptrs
  count := hcount ▸ h.count
  bound := fun x y hxy => by
    by_cases hp : (x, y) = (u, v)
    · obtain ⟨rfl, rfl⟩ := Prod.mk.inj hp
      exact ⟨hu, hv⟩
    · rw [A.bind_of_ne hp] at hxy
      exact h.bound x y hxy
  stored := hstored

/-- `add_one_edge` binds the pair. -/
theorem Represents.addOneEdge (h : Represents g A) (hrep : g.rep = .adjacencyList)
    (hu : u ∈ A.vertices) (hv : v ∈ A.vertices) {w : WithTop ℚ} (hw : w ≠ ⊤) :
    ∃ g', g.addOneEdge u v w Allocator.always = (g', Allocator.always) ∧
      Represents g' (A.bind u v w) ∧ g'.rep = g.rep := by
  have hstored := (stored_iff_lists hrep).mp h.stored
  obtain ⟨adj, hadj⟩ := Option.isSome_iff_exists.mp ((hstored.isSome_iff u).mpr hu)
  obtain ⟨hpos, hedges⟩ := hstored.edges u adj hadj
  obtain ⟨new, hnew, hnewedges, hnewpos⟩ :=
    GraphImpl.writeEdge_always v hedges hpos (h.length_lt hedges) w
  rw [← row_bind_self w hw] at hnewedges
  refine ⟨g.setAdjList u new, ?_, ?_, rfl⟩
  · simp only [GraphImpl.addOneEdge, GraphImpl.ensureAdjList, hadj, hnew]
  · have hrep' : (g.setAdjList u new).rep = .adjacencyList := hrep
    exact h.of_stored hu hv rfl rfl rfl rfl rfl rfl
      ((stored_iff_lists hrep').mpr (hstored.setAdjList hu hnewpos hnewedges))

/-- `remove_one_edge` unbinds the pair. -/
theorem Represents.removeOneEdge (h : Represents g A) (hrep : g.rep = .adjacencyList)
    (hu : u ∈ A.vertices) (hv : v ∈ A.vertices) :
    Represents (g.removeOneEdge u v) (A.bind u v ⊤) ∧ (g.removeOneEdge u v).rep = g.rep := by
  have hstored := (stored_iff_lists hrep).mp h.stored
  obtain ⟨adj, hadj⟩ := Option.isSome_iff_exists.mp ((hstored.isSome_iff u).mpr hu)
  obtain ⟨hpos, hedges⟩ := hstored.edges u adj hadj
  have hnewedges := GraphImpl.eraseEdge_edges v hedges
  rw [← row_bind_top] at hnewedges
  simp only [GraphImpl.removeOneEdge, hadj]
  have hnewpos : 0 < (GraphImpl.eraseEdge adj v).capacity := by
    rw [GraphImpl.capacity_eraseEdge]
    exact hpos
  have hrep' : (g.setAdjList u (GraphImpl.eraseEdge adj v)).rep = .adjacencyList := hrep
  exact ⟨h.of_stored hu hv rfl rfl rfl rfl rfl rfl
    ((stored_iff_lists hrep').mpr (hstored.setAdjList hu hnewpos hnewedges)), rfl⟩

/-- Writing one cell rebinds its pair. -/
theorem Represents.setCell (h : Represents g A) (hrep : g.rep = .adjacencyMatrix)
    (hu : u ∈ A.vertices) (hv : v ∈ A.vertices) (w : WithTop ℚ) :
    Represents (g.setCell u v w) (A.bind u v w) := by
  have hstored := (stored_iff_matrix hrep).mp h.stored
  have hcell := GraphImpl.cell_eq (h.capacity_le_matrix hrep) (h.lt_capacity u hu)
    (h.lt_capacity v hv)
  have hrep' : (g.setCell u v w).rep = .adjacencyMatrix := hrep
  refine h.of_stored hu hv rfl rfl rfl rfl rfl rfl
    ((stored_iff_matrix hrep').mpr fun x y hx hy => ?_)
  rw [GraphImpl.setCell_vertexCapacity] at hx hy ⊢
  rw [GraphImpl.setCell_adjMatrix, hcell]
  by_cases hxy : (x, y) = (u, v)
  · obtain ⟨rfl, rfl⟩ := Prod.mk.inj hxy
    rw [Function.update_self, A.bind_self]
  · have hne : ((x * g.vertexCapacity + y : ℕ) : ℤ) ≠ ((u * g.vertexCapacity + v : ℕ) : ℤ) := by
      intro heq
      obtain ⟨rfl, rfl⟩ := GraphImpl.index_inj hy (h.lt_capacity v hv) (Nat.cast_injective heq)
      exact hxy rfl
    rw [Function.update_of_ne hne, A.bind_of_ne hxy]
    exact hstored x y hx hy

/-- Both cells of an undirected edge, one of a directed one. -/
theorem Represents.setCells (h : Represents g A) (hrep : g.rep = .adjacencyMatrix)
    (hu : u ∈ A.vertices) (hv : v ∈ A.vertices) (w : WithTop ℚ) :
    Represents (g.setCells u v w) (A.setEdge u v w) ∧ (g.setCells u v w).rep = g.rep := by
  have hone := h.setCell hrep hu hv w
  unfold GraphImpl.setCells AbstractGraph.setEdge
  dsimp only
  rw [hone.type_eq]
  show Represents (if A.type = .undirected ∧ u ≠ v then _ else _) _ ∧
    (if A.type = .undirected ∧ u ≠ v then _ else _ : GraphImpl).rep = _
  split
  · exact ⟨hone.setCell hrep hv hu w, rfl⟩
  · exact ⟨hone, rfl⟩

theorem Represents.adjListAddEdge (h : Represents g A) (hrep : g.rep = .adjacencyList)
    (hu : u ∈ A.vertices) (hv : v ∈ A.vertices) {w : WithTop ℚ} (hw : w ≠ ⊤) :
    ∃ g', g.adjListAddEdge u v w Allocator.always = (g', Allocator.always) ∧
      Represents g' (A.setEdge u v w) ∧ g'.rep = g.rep := by
  obtain ⟨g₁, hg₁, hone, hrep₁⟩ := h.addOneEdge hrep hu hv hw
  rw [GraphImpl.adjListAddEdge, AbstractGraph.setEdge]
  rw [hg₁]
  dsimp only
  rw [hone.type_eq]
  show ∃ g', (if A.type = .undirected ∧ u ≠ v then _ else _) = _ ∧ _
  split
  · obtain ⟨g₂, hg₂, htwo, hrep₂⟩ := hone.addOneEdge (hrep₁.trans hrep) hv hu hw
    exact ⟨g₂, hg₂, htwo, hrep₂.trans hrep₁⟩
  · exact ⟨g₁, rfl, hone, hrep₁⟩

theorem Represents.adjListRemoveEdge (h : Represents g A) (hrep : g.rep = .adjacencyList)
    (hu : u ∈ A.vertices) (hv : v ∈ A.vertices) :
    Represents (g.adjListRemoveEdge u v) (A.setEdge u v ⊤) ∧
      (g.adjListRemoveEdge u v).rep = g.rep := by
  obtain ⟨hone, hrep₁⟩ := h.removeOneEdge hrep hu hv
  unfold GraphImpl.adjListRemoveEdge AbstractGraph.setEdge
  dsimp only
  rw [hone.type_eq]
  show Represents (if A.type = .undirected ∧ u ≠ v then _ else _) _ ∧
    (if A.type = .undirected ∧ u ≠ v then _ else _ : GraphImpl).rep = _
  split
  · obtain ⟨htwo, hrep₂⟩ := hone.removeOneEdge (hrep₁.trans hrep) hv hu
    exact ⟨htwo, hrep₂.trans hrep₁⟩
  · exact ⟨hone, hrep₁⟩

/-- `graph_add_edge_impl` adds the vertices and binds the edge. -/
theorem addEdge_represents (h : Represents g A) {x y : ℤ} (hx : 0 ≤ x)
    (hx' : x < 2 ^ g.rep.maxLog) (hy : 0 ≤ y) (hy' : y < 2 ^ g.rep.maxLog) {w : WithTop ℚ}
    (hw : w ≠ ⊤) :
    ∃ g', g.addEdge junk x y w Allocator.always = some (g', Allocator.always) ∧
      Represents g' (((A.addVertex x.toNat).addVertex y.toNat).setEdge x.toNat y.toNat w) ∧
      g'.rep = g.rep := by
  obtain ⟨g₁, hg₁, hone, hrep₁⟩ := addVertex_represents junk h hx hx'
  obtain ⟨g₂, hg₂, htwo, hrep₂⟩ := addVertex_represents junk hone hy (hrep₁ ▸ hy')
  have hxmem : x.toNat ∈ ((A.addVertex x.toNat).addVertex y.toNat).vertices :=
    Finset.mem_insert_of_mem (Finset.mem_insert_self _ _)
  have hymem : y.toNat ∈ ((A.addVertex x.toNat).addVertex y.toNat).vertices :=
    Finset.mem_insert_self _ _
  rw [GraphImpl.addEdge]
  rw [if_neg (by omega), hg₁]
  simp only [hg₂, (htwo.hasVertex_iff x).mpr ⟨hx, hxmem⟩, (htwo.hasVertex_iff y).mpr ⟨hy, hymem⟩,
    Bool.not_true, Bool.or_self, Bool.false_eq_true, if_false]
  cases hrep : g₂.rep with
  | adjacencyList =>
    obtain ⟨g', hg', hrepr, hsame⟩ := htwo.adjListAddEdge hrep hxmem hymem hw
    exact ⟨g', by rw [hg'], hrepr, hsame.trans (hrep₂.trans hrep₁)⟩
  | adjacencyMatrix =>
    obtain ⟨hrepr, hsame⟩ := htwo.setCells hrep hxmem hymem w
    exact ⟨_, rfl, hrepr, hsame.trans (hrep₂.trans hrep₁)⟩

/-- `graph_remove_edge_impl` unbinds the edge. -/
theorem removeEdge_represents (h : Represents g A) {x y : ℤ} (hx : 0 ≤ x) (hy : 0 ≤ y) :
    Represents (g.removeEdge x y) (A.setEdge x.toNat y.toNat ⊤) ∧
      (g.removeEdge x y).rep = g.rep := by
  rw [GraphImpl.removeEdge]
  by_cases hmem : x.toNat ∈ A.vertices ∧ y.toNat ∈ A.vertices
  · simp only [(h.hasVertex_iff x).mpr ⟨hx, hmem.1⟩, (h.hasVertex_iff y).mpr ⟨hy, hmem.2⟩,
      Bool.not_true, Bool.or_self, Bool.false_eq_true, if_false]
    cases hrep : g.rep with
    | adjacencyList =>
      obtain ⟨hrepr, hsame⟩ := h.adjListRemoveEdge hrep hmem.1 hmem.2
      exact ⟨hrepr, hsame.trans hrep⟩
    | adjacencyMatrix =>
      obtain ⟨hrepr, hsame⟩ := h.setCells hrep hmem.1 hmem.2 ⊤
      exact ⟨hrepr, hsame.trans hrep⟩
  · have hout : (!g.hasVertex x || !g.hasVertex y) = true := by
      rw [Bool.or_eq_true, Bool.not_eq_true', Bool.not_eq_true', ← Bool.not_eq_true,
        ← Bool.not_eq_true, h.hasVertex_iff, h.hasVertex_iff]
      tauto
    rw [if_pos hout]
    have hunbound : A.weight (x.toNat, y.toNat) = ⊤ ∧ A.weight (y.toNat, x.toNat) = ⊤ := by
      rcases not_and_or.mp hmem with hx' | hy'
      · exact ⟨h.weight_left hx', h.weight_right hx'⟩
      · exact ⟨h.weight_right hy', h.weight_left hy'⟩
    rw [AbstractGraph.setEdge_top hunbound.1 hunbound.2]
    exact ⟨h, rfl⟩

end Edges

/-! ## Runs

The step lemma of a call, and the run lemma by induction on the calls. -/

/-- The ids of a call are non-negative and below the bound, and the weight is finite. -/
def Call.Below (bound : ℤ) : Call → Prop
  | .addVertex v => 0 ≤ v ∧ v < bound
  | .addEdge u v w => (0 ≤ u ∧ u < bound) ∧ (0 ≤ v ∧ v < bound) ∧ w ≠ ⊤
  | .removeEdge u v => (0 ≤ u ∧ u < bound) ∧ (0 ≤ v ∧ v < bound)

/-- The ids of a call are non-negative and below 32768, and the weight is finite. -/
def Call.InScope (c : Call) : Prop := c.Below 32768

instance : DecidablePred Call.InScope
  | .addVertex _ => inferInstanceAs (Decidable (_ ∧ _))
  | .addEdge _ _ _ => inferInstanceAs (Decidable ((_ ∧ _) ∧ (_ ∧ _) ∧ _))
  | .removeEdge _ _ => inferInstanceAs (Decidable ((_ ∧ _) ∧ (_ ∧ _)))

theorem Call.Below.mono {b b' : ℤ} (hb : b ≤ b') {c : Call} (h : c.Below b) : c.Below b' := by
  cases c with
  | addVertex v => exact ⟨h.1, h.2.trans_le hb⟩
  | addEdge u v w =>
    exact ⟨⟨h.1.1, h.1.2.trans_le hb⟩, ⟨h.2.1.1, h.2.1.2.trans_le hb⟩, h.2.2⟩
  | removeEdge u v => exact ⟨⟨h.1.1, h.1.2.trans_le hb⟩, ⟨h.2.1, h.2.2.trans_le hb⟩⟩

/-- Such ids fit into either representation. -/
theorem Call.InScope.below {c : Call} (h : c.InScope) (rep : GraphRepresentation) :
    c.Below (2 ^ rep.maxLog) := by
  exact Call.Below.mono (pow_le_pow_right₀ (by norm_num) rep.maxLog_bounds.1 :
    (2 : ℤ) ^ 15 ≤ 2 ^ rep.maxLog) h

section Runs

variable (junk : ℤ → WithTop ℚ)

/-- A new graph represents the graph without vertices. -/
theorem create_represents (type : GraphType) (rep : GraphRepresentation) (ts : TraversalStrategy)
    (ms : MinPathStrategy) :
    ∃ g, GraphImpl.create junk type rep ts ms Allocator.always = (some g, Allocator.always) ∧
      Represents g (AbstractGraph.empty type) ∧ g.rep = rep := by
  simp only [GraphImpl.create, Allocator.alloc_always, Bool.not_true, Bool.or_self,
    Bool.false_eq_true, if_false]
  have hthree : 3 ≤ rep.maxLog := le_trans (by norm_num) rep.maxLog_bounds.1
  refine ⟨_, rfl, ⟨rfl, ⟨3, le_rfl, hthree, rfl⟩, fun v => ?_, ?_, ?_, rfl, ?_, ?_⟩, rfl⟩
  · simp [AbstractGraph.empty]
  · simp [AbstractGraph.empty]
  · simp [AbstractGraph.empty]
  · intro u v huv
    exact absurd rfl huv
  · cases rep with
    | adjacencyList =>
      refine (stored_iff_lists rfl).mpr ⟨fun u => ?_, fun u adj hadj => ?_⟩
      · simp [AbstractGraph.empty]
      · exact absurd hadj (by simp)
    | adjacencyMatrix =>
      refine (stored_iff_matrix rfl).mpr fun u v hu hv => ?_
      have hcap : 8 ≤ 32768 := by norm_num
      have hunset := GraphImpl.newAdjMatrix_apply junk hcap hu hv
      exact hunset

/-- One call does to what a graph represents what it says, in either representation. This is the
step of the induction over the calls. -/
theorem Call.run_represents {g : GraphImpl} {A : AbstractGraph} (h : Represents g A) {c : Call}
    (hc : c.Below (2 ^ g.rep.maxLog)) :
    ∃ g', c.run junk g Allocator.always = some (g', Allocator.always) ∧
      Represents g' (A.apply c) ∧ g'.rep = g.rep := by
  cases c with
  | addVertex v => exact addVertex_represents junk h hc.1 hc.2
  | addEdge u v w =>
    obtain ⟨hu, hv, hw⟩ := hc
    exact addEdge_represents junk h hu.1 hu.2 hv.1 hv.2 hw
  | removeEdge u v =>
    obtain ⟨hrepr, hrep⟩ := removeEdge_represents h hc.1.1 hc.2.1
    exact ⟨_, rfl, hrepr, hrep⟩

theorem runCalls_represents : ∀ (calls : List Call) {g : GraphImpl} {A : AbstractGraph},
    Represents g A → (∀ c ∈ calls, c.Below (2 ^ g.rep.maxLog)) →
      ∃ g', runCalls junk g Allocator.always calls = some (g', Allocator.always) ∧
        Represents g' (calls.foldl AbstractGraph.apply A) ∧ g'.rep = g.rep := by
  intro calls
  induction calls with
  | nil => exact fun {g} {A} h _ => ⟨g, rfl, h, rfl⟩
  | cons c calls ih =>
    intro g A h hcalls
    obtain ⟨g₁, hg₁, hrepr₁, hrep₁⟩ := Call.run_represents junk h (hcalls c List.mem_cons_self)
    obtain ⟨g₂, hg₂, hrepr₂, hrep₂⟩ := ih hrepr₁ fun c' hc' =>
      hrep₁ ▸ hcalls c' (List.mem_cons_of_mem _ hc')
    refine ⟨g₂, ?_, hrepr₂, hrep₂.trans hrep₁⟩
    rw [runCalls, hg₁]
    exact hg₂

/-- The calls build a graph that represents what they say: in a list graph with ids up to `2 ^ 30`,
in a matrix graph with ids up to `2 ^ 15`. -/
theorem build_represents_below (type : GraphType) (rep : GraphRepresentation)
    (ts : TraversalStrategy) (ms : MinPathStrategy) {calls : List Call}
    (hcalls : ∀ c ∈ calls, c.Below (2 ^ rep.maxLog)) :
    ∃ g, build junk type rep ts ms Allocator.always calls = some (g, Allocator.always) ∧
      Represents g (AbstractGraph.ofCalls type calls) ∧ g.rep = rep := by
  obtain ⟨g, hg, hrepr, hrep⟩ := create_represents junk type rep ts ms
  obtain ⟨g', hg', hrepr', hrep'⟩ := runCalls_represents junk calls hrepr (hrep ▸ hcalls)
  refine ⟨g', ?_, hrepr', hrep'.trans hrep⟩
  rw [build, hg]
  exact hg'

/-- With ids below 32768 they do so in either representation. -/
theorem build_represents (type : GraphType) (rep : GraphRepresentation) (ts : TraversalStrategy)
    (ms : MinPathStrategy) {calls : List Call} (hcalls : ∀ c ∈ calls, c.InScope) :
    ∃ g, build junk type rep ts ms Allocator.always calls = some (g, Allocator.always) ∧
      Represents g (AbstractGraph.ofCalls type calls) ∧ g.rep = rep :=
  build_represents_below junk type rep ts ms fun c hc => (hcalls c hc).below rep

end Runs

/-! ## Observations

What each query returns, in the terms of the abstract graph. A query about ids that are no vertices
is answered too: there is no edge, the weight is infinite, and the neighbours are none. -/

section Observations

variable {g : GraphImpl} {A : AbstractGraph}

/-- The raw weight of a pair of vertices is the weight of the pair. -/
theorem Represents.rawWeight (h : Represents g A) {u v : ℕ} (hu : u ∈ A.vertices)
    (hv : v ∈ A.vertices) :
    (g.rep = .adjacencyList → g.adjListGetEdgeWeight u v = A.weight (u, v) ∧
      (g.adjListHasEdge u v = true ↔ A.weight (u, v) ≠ ⊤)) ∧
    (g.rep = .adjacencyMatrix → g.adjMatrixGetEdgeWeight u v = A.weight (u, v) ∧
      (g.adjMatrixHasEdge u v = true ↔ A.weight (u, v) ≠ ⊤)) := by
  constructor
  · intro hrep
    have hstored := (stored_iff_lists hrep).mp h.stored
    obtain ⟨adj, hadj⟩ := Option.isSome_iff_exists.mp ((hstored.isSome_iff u).mpr hu)
    obtain ⟨-, hedges⟩ := hstored.edges u adj hadj
    refine ⟨?_, ?_⟩
    · rw [GraphImpl.adjListGetEdgeWeight, hadj]
      exact (GraphImpl.edgeWeight_eq hedges).trans (row_getD _ _ _)
    · rw [GraphImpl.adjListHasEdge, hadj]
      dsimp only
      rw [GraphImpl.isSome_findEdge hedges, isSome_row]
  · intro hrep
    have hstored := (stored_iff_matrix hrep).mp h.stored
    have hcell : g.adjMatrix (g.cell u v) = A.weight (u, v) := by
      rw [GraphImpl.cell_eq (h.capacity_le_matrix hrep) (h.lt_capacity u hu) (h.lt_capacity v hv)]
      exact hstored u v (h.lt_capacity u hu) (h.lt_capacity v hv)
    refine ⟨hcell, ?_⟩
    rw [GraphImpl.adjMatrixHasEdge, hcell]
    exact decide_eq_true_iff

/-- Both ends of the query are vertices, or it says there is no edge. -/
theorem Represents.query (h : Represents g A) (x y : ℤ) :
    (0 ≤ x ∧ 0 ≤ y ∧ x.toNat ∈ A.vertices ∧ y.toNat ∈ A.vertices ∧
      (!g.hasVertex x || !g.hasVertex y) = false) ∨
    ((0 ≤ x ∧ 0 ≤ y → A.weight (x.toNat, y.toNat) = ⊤) ∧
      (!g.hasVertex x || !g.hasVertex y) = true) := by
  by_cases hboth : (0 ≤ x ∧ x.toNat ∈ A.vertices) ∧ (0 ≤ y ∧ y.toNat ∈ A.vertices)
  · left
    refine ⟨hboth.1.1, hboth.2.1, hboth.1.2, hboth.2.2, ?_⟩
    rw [(h.hasVertex_iff x).mpr hboth.1, (h.hasVertex_iff y).mpr hboth.2]
    rfl
  · right
    refine ⟨fun hxy => ?_, ?_⟩
    · by_contra hne
      obtain ⟨hx, hy⟩ := h.bound _ _ hne
      exact hboth ⟨⟨hxy.1, hx⟩, hxy.2, hy⟩
    · rw [Bool.or_eq_true, Bool.not_eq_true', Bool.not_eq_true', ← Bool.not_eq_true,
        ← Bool.not_eq_true, h.hasVertex_iff, h.hasVertex_iff]
      tauto

theorem Represents.getEdgeWeight_eq (h : Represents g A) (x y : ℤ) :
    g.getEdgeWeight x y = if 0 ≤ x ∧ 0 ≤ y then A.weight (x.toNat, y.toNat) else ⊤ := by
  rw [GraphImpl.getEdgeWeight]
  rcases h.query x y with ⟨hx, hy, hxmem, hymem, hin⟩ | ⟨htop, hout⟩
  · obtain ⟨hlist, hmatrix⟩ := h.rawWeight hxmem hymem
    rw [hin, if_neg Bool.false_ne_true, if_pos ⟨hx, hy⟩]
    cases hrep : g.rep with
    | adjacencyList => exact (hlist hrep).1
    | adjacencyMatrix => exact (hmatrix hrep).1
  · rw [if_pos hout]
    split
    · next hxy => exact (htop hxy).symm
    · rfl

theorem Represents.hasEdge_iff (h : Represents g A) (x y : ℤ) :
    g.hasEdge x y = true ↔ 0 ≤ x ∧ 0 ≤ y ∧ A.weight (x.toNat, y.toNat) ≠ ⊤ := by
  rw [GraphImpl.hasEdge]
  rcases h.query x y with ⟨hx, hy, hxmem, hymem, hin⟩ | ⟨htop, hout⟩
  · obtain ⟨hlist, hmatrix⟩ := h.rawWeight hxmem hymem
    rw [hin, if_neg Bool.false_ne_true]
    simp only [hx, hy, true_and]
    cases hrep : g.rep with
    | adjacencyList => exact (hlist hrep).2
    | adjacencyMatrix => exact (hmatrix hrep).2
  · rw [if_pos hout]
    simp only [Bool.false_eq_true, false_iff, not_and, not_not]
    exact fun hx hy => htop ⟨hx, hy⟩

/-- One pointer appended to the neighbours. -/
theorem appendNeighbor_always (g : GraphImpl) (v : ℕ) {l : ArrayList (Option ℕ)}
    (hpos : 0 < l.capacity) (hsize : l.items.length < intMax) :
    ∃ l', g.appendNeighbor v (l, Allocator.always) = (l', Allocator.always) ∧
      l'.items = l.items ++ [g.vertexPtrs v] ∧ 0 < l'.capacity := by
  obtain ⟨l', hl', hitems, hpos'⟩ := ArrayList.append_always hpos hsize (g.vertexPtrs v)
  exact ⟨l', by rw [GraphImpl.appendNeighbor, hl'], hitems, hpos'⟩

/-- The loop that collects the neighbours, over any list of candidates. -/
theorem foldl_appendNeighbor {β : Type*} (g : GraphImpl) (skip : β → Prop) [DecidablePred skip]
    (target : β → ℕ) : ∀ (cs : List β) {l : ArrayList (Option ℕ)}, 0 < l.capacity →
      l.items.length + cs.length ≤ intMax →
      ∃ l', cs.foldl (fun r c => if skip c then r else g.appendNeighbor (target c) r)
          (l, Allocator.always) = (l', Allocator.always) ∧
        l'.items = l.items ++
          (cs.filter fun c => ¬ skip c).map fun c => g.vertexPtrs (target c) := by
  intro cs
  induction cs with
  | nil => exact fun {l} _ _ => ⟨l, rfl, by simp⟩
  | cons c cs ih =>
    intro l hpos hsize
    rw [List.length_cons] at hsize
    by_cases hskip : skip c
    · obtain ⟨l', hl', hitems⟩ := ih hpos (by omega)
      refine ⟨l', ?_, ?_⟩
      · rw [List.foldl_cons, if_pos hskip]
        exact hl'
      · simpa [hskip] using hitems
    · obtain ⟨l₁, hl₁, hitems₁, hpos₁⟩ := appendNeighbor_always g (target c) hpos (by omega)
      obtain ⟨l', hl', hitems⟩ := ih hpos₁ (by rw [hitems₁]; simp; omega)
      refine ⟨l', ?_, ?_⟩
      · rw [List.foldl_cons, if_neg hskip, hl₁]
        exact hl'
      · rw [hitems, hitems₁]
        simp [hskip]

theorem create_neighbors : ArrayList.create (α := Option ℕ) 4 Allocator.always =
    (some ⟨[], 4, Nat.zero_le _, by decide⟩, Allocator.always) :=
  ArrayList.create_always (by norm_num) (by decide)

/-- The neighbours in the edge list of a vertex. -/
theorem Represents.adjListGetNeighbors (h : Represents g A) (hrep : g.rep = .adjacencyList) {u : ℕ}
    (hu : u ∈ A.vertices) :
    ∃ l, g.adjListGetNeighbors u Allocator.always = (some l, Allocator.always) ∧
      ∀ p, p ∈ l.items ↔ ∃ v, p = some v ∧ A.weight (u, v) ≠ ⊤ := by
  have hstored := (stored_iff_lists hrep).mp h.stored
  obtain ⟨adj, hadj⟩ := Option.isSome_iff_exists.mp ((hstored.isSome_iff u).mpr hu)
  obtain ⟨-, hedges⟩ := hstored.edges u adj hadj
  have hlen := h.length_lt hedges
  obtain ⟨l', hl', hitems⟩ := foldl_appendNeighbor g
    (fun e : GraphEdge => e.toVertex ≥ g.vertexCapacity ∨ !g.present e.toVertex)
    GraphEdge.toVertex adj.items
    (l := ⟨[], 4, Nat.zero_le _, by decide⟩) (by norm_num) (by simpa using hlen.le)
  refine ⟨l', ?_, fun p => ?_⟩
  · simp only [GraphImpl.adjListGetNeighbors, create_neighbors, hadj]
    exact congrArg (fun r => (some r.1, r.2)) hl'
  · rw [hitems]
    simp only [List.nil_append, List.mem_map, List.mem_filter, decide_eq_true_eq, not_or]
    constructor
    · rintro ⟨e, ⟨he, -⟩, rfl⟩
      have hw := (isSome_row A.weight u e.toVertex).mp (by rw [hedges.of_mem he]; rfl)
      exact ⟨e.toVertex, h.ptrs _ (h.bound _ _ hw).2, hw⟩
    · rintro ⟨v, rfl, hw⟩
      have hv := (h.bound _ _ hw).2
      obtain ⟨w, hw'⟩ := Option.isSome_iff_exists.mp ((isSome_row A.weight u v).mpr hw)
      obtain ⟨e, he, rfl, -⟩ := (hedges.eq_some_iff v w).mp hw'
      refine ⟨e, ⟨he, ?_, ?_⟩, h.ptrs _ hv⟩
      · exact not_le.mpr (h.lt_capacity _ hv)
      · simp [(h.present_iff _).mpr hv]

/-- The neighbours in the row of a vertex. -/
theorem Represents.adjMatrixGetNeighbors (h : Represents g A) (hrep : g.rep = .adjacencyMatrix)
    {u : ℕ} (hu : u ∈ A.vertices) :
    ∃ l, g.adjMatrixGetNeighbors u Allocator.always = (some l, Allocator.always) ∧
      ∀ p, p ∈ l.items ↔ ∃ v, p = some v ∧ A.weight (u, v) ≠ ⊤ := by
  obtain ⟨l', hl', hitems⟩ := foldl_appendNeighbor g
    (fun v : ℕ => !g.present v ∨ g.adjMatrix (g.cell u v) = ⊤) id
    (List.range g.vertexCapacity) (l := ⟨[], 4, Nat.zero_le _, by decide⟩) (by norm_num)
    (by simpa using h.capacity_lt.le)
  have hcell : ∀ {v}, v ∈ A.vertices → g.adjMatrix (g.cell u v) = A.weight (u, v) :=
    fun {v} hv => ((h.rawWeight hu hv).2 hrep).1
  refine ⟨l', ?_, fun p => ?_⟩
  · simp only [GraphImpl.adjMatrixGetNeighbors, create_neighbors]
    exact congrArg (fun r => (some r.1, r.2)) hl'
  · rw [hitems]
    simp only [List.nil_append, List.mem_map, List.mem_filter, decide_eq_true_eq, not_or,
      List.mem_range, id_eq]
    constructor
    · rintro ⟨v, ⟨-, hpresent, hw⟩, rfl⟩
      have hv : v ∈ A.vertices := (h.present_iff v).mp (by simpa using hpresent)
      exact ⟨v, h.ptrs v hv, hcell hv ▸ hw⟩
    · rintro ⟨v, rfl, hw⟩
      have hv := (h.bound _ _ hw).2
      exact ⟨v, ⟨h.lt_capacity v hv, by simp [(h.present_iff v).mpr hv], (hcell hv).symm ▸ hw⟩,
        h.ptrs v hv⟩

/-- `graph_get_neighbors_impl` returns the pointers of the heads of the edges. -/
theorem Represents.getNeighbors (h : Represents g A) (x : ℤ) :
    ∃ l, g.getNeighbors x Allocator.always = (some l, Allocator.always) ∧
      ∀ p, p ∈ l.items ↔ ∃ v, p = some v ∧ 0 ≤ x ∧ A.weight (x.toNat, v) ≠ ⊤ := by
  rw [GraphImpl.getNeighbors]
  by_cases hx : 0 ≤ x ∧ x.toNat ∈ A.vertices
  · rw [(h.hasVertex_iff x).mpr hx]
    simp only [Bool.not_true, Bool.false_eq_true, if_false, hx.1, true_and]
    cases hrep : g.rep with
    | adjacencyList => exact h.adjListGetNeighbors hrep hx.2
    | adjacencyMatrix => exact h.adjMatrixGetNeighbors hrep hx.2
  · have hout : (!g.hasVertex x) = true := by
      rw [Bool.not_eq_true', ← Bool.not_eq_true, h.hasVertex_iff]
      exact hx
    rw [if_pos hout, create_neighbors]
    refine ⟨_, rfl, fun p => ?_⟩
    simp only [List.not_mem_nil, false_iff, not_exists, not_and, not_not]
    intro v _ hx0
    exact h.weight_left fun hmem => hx ⟨hx0, hmem⟩

end Observations

/-- Everything that can be asked of a graph has the answer the abstract graph gives. Neighbours come
in an order that depends on the representation, so of them only the members are given. -/
structure Observes (g : GraphImpl) (A : AbstractGraph) : Prop where
  hasVertex : ∀ x : ℤ, g.hasVertex x = true ↔ 0 ≤ x ∧ x.toNat ∈ A.vertices
  vertexCount : g.vertexCount = A.vertices.card
  hasEdge : ∀ x y : ℤ, g.hasEdge x y = true ↔ 0 ≤ x ∧ 0 ≤ y ∧ A.weight (x.toNat, y.toNat) ≠ ⊤
  getEdgeWeight : ∀ x y : ℤ,
    g.getEdgeWeight x y = if 0 ≤ x ∧ 0 ≤ y then A.weight (x.toNat, y.toNat) else ⊤
  getNeighbors : ∀ x : ℤ, ∃ l, g.getNeighbors x Allocator.always = (some l, Allocator.always) ∧
    ∀ p, p ∈ l.items ↔ ∃ v, p = some v ∧ 0 ≤ x ∧ A.weight (x.toNat, v) ≠ ⊤

theorem Represents.observes {g : GraphImpl} {A : AbstractGraph} (h : Represents g A) :
    Observes g A where
  hasVertex := h.hasVertex_iff
  vertexCount := h.count
  hasEdge := h.hasEdge_iff
  getEdgeWeight := h.getEdgeWeight_eq
  getNeighbors := h.getNeighbors

/-- Two graphs that give the same answers; neighbours are compared as sets. -/
structure Agree (g g' : GraphImpl) : Prop where
  hasVertex : ∀ x : ℤ, g.hasVertex x = g'.hasVertex x
  vertexCount : g.vertexCount = g'.vertexCount
  hasEdge : ∀ x y : ℤ, g.hasEdge x y = g'.hasEdge x y
  getEdgeWeight : ∀ x y : ℤ, g.getEdgeWeight x y = g'.getEdgeWeight x y
  getNeighbors : ∀ x : ℤ, ∃ l l', (g.getNeighbors x Allocator.always).1 = some l ∧
    (g'.getNeighbors x Allocator.always).1 = some l' ∧ ∀ p, p ∈ l.items ↔ p ∈ l'.items

theorem Observes.agree {g g' : GraphImpl} {A : AbstractGraph} (h : Observes g A)
    (h' : Observes g' A) : Agree g g' where
  hasVertex := fun x => Bool.eq_iff_iff.mpr ((h.hasVertex x).trans (h'.hasVertex x).symm)
  vertexCount := h.vertexCount.trans h'.vertexCount.symm
  hasEdge := fun x y => Bool.eq_iff_iff.mpr ((h.hasEdge x y).trans (h'.hasEdge x y).symm)
  getEdgeWeight := fun x y => (h.getEdgeWeight x y).trans (h'.getEdgeWeight x y).symm
  getNeighbors := fun x => by
    obtain ⟨l, hl, hmem⟩ := h.getNeighbors x
    obtain ⟨l', hl', hmem'⟩ := h'.getNeighbors x
    exact ⟨l, l', by rw [hl], by rw [hl'], fun p => (hmem p).trans (hmem' p).symm⟩

/-- **The two representations are one graph.** The list graph and the matrix graph that the same
calls build, whatever they are and however often the storage grows, both represent the abstract
graph of the calls: a finite set of vertices with weights on ordered pairs of them, symmetric when
undirected. -/
theorem graph_refines_map (junk : ℤ → WithTop ℚ) (type : GraphType) (ts : TraversalStrategy)
    (ms : MinPathStrategy) (calls : List Call) (hcalls : ∀ c ∈ calls, c.InScope) :
    let A := AbstractGraph.ofCalls type calls
    ∃ gl gm,
      build junk type .adjacencyList ts ms Allocator.always calls = some (gl, Allocator.always) ∧
      build junk type .adjacencyMatrix ts ms Allocator.always calls = some (gm, Allocator.always) ∧
      Observes gl A ∧ Observes gm A ∧ Agree gl gm ∧
      (∀ u v, A.weight (u, v) ≠ ⊤ → u ∈ A.vertices ∧ v ∈ A.vertices) ∧
      (type = .undirected → ∀ u v, A.weight (u, v) = A.weight (v, u)) := by
  obtain ⟨gl, hgl, hl, -⟩ := build_represents junk type .adjacencyList ts ms hcalls
  obtain ⟨gm, hgm, hm, -⟩ := build_represents junk type .adjacencyMatrix ts ms hcalls
  have hsymm := AbstractGraph.symmetric_ofCalls type calls
  refine ⟨gl, gm, hgl, hgm, hl.observes, hm.observes, hl.observes.agree hm.observes, hl.bound,
    fun hun => hsymm ?_⟩
  rw [← hun]
  exact AbstractGraph.ofCalls_type type calls

/-- A self loop, an overwritten weight, a removal and a growth. -/
theorem graph_refines_map_growth :
    let calls := [Call.addEdge 1 1 (5 : ℚ), .addEdge 1 20 (2 : ℚ), .addEdge 1 20 (3 : ℚ),
      .removeEdge 1 1]
    ∃ gl gm,
      build (fun _ => 0) .undirected .adjacencyList .bfs .dijkstra Allocator.always calls =
        some (gl, Allocator.always) ∧
      build (fun _ => 0) .undirected .adjacencyMatrix .bfs .dijkstra Allocator.always calls =
        some (gm, Allocator.always) ∧ Agree gl gm := by
  intro calls
  obtain ⟨gl, gm, hgl, hgm, -, -, hagree, -⟩ :=
    graph_refines_map (fun _ => 0) .undirected .bfs .dijkstra calls (by
      simp [calls, Call.InScope, Call.Below])
  exact ⟨gl, gm, hgl, hgm, hagree⟩

end Graph

end OvaLib
