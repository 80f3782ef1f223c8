import OvaLib.Graph.Graph

/-!
# What one call does

The calls that change a graph, taken apart once: the growth, which changes nothing or moves every
array, the two ways in which a vertex is entered or not, and the two vertices of an edge. Removing
an edge, and writing one, changes the edges only.

An invariant of graphs that is to hold whatever allocations fail has to be kept by a call that gives
up half way. Each lemma here says of one function all the states in which it can return, with the
guards under which it does, so that the proof of an invariant is a case analysis and never unfolds
the function. Several modules have invariants of this kind: what every graph keeps, the powers of
two, the agreement of the two records of an edge.

## Main results

* `reallocate_cases`, `ensureCapacity_cases`, `addVertex_cases`, `addEdge_cases` — what a call did
* `EdgesOnly` — what the functions of the two representations leave as it is
* `build_induction` — what every call keeps, every graph has
-/

namespace OvaLib

namespace Graph

namespace GraphImpl

variable (junk : ℤ → WithTop ℚ) {g g' : GraphImpl} {a a' : Allocator} {id : ℤ}

/-! ## The growth

All or nothing: the new arrays are there before the old ones are given up. -/

/-- The graph with the arrays of a new capacity. -/
def grown (g : GraphImpl) (newCap : ℕ) : GraphImpl :=
  { g with
    vertexCapacity := newCap
    present := fun i => if i < g.vertexCapacity then g.present i else false
    vertexPtrs := fun i => if i < g.vertexCapacity then g.vertexPtrs i else none
    adjLists :=
      match g.rep with
      | .adjacencyList => fun i => if i < g.vertexCapacity then g.adjLists i else none
      | .adjacencyMatrix => g.adjLists
    adjMatrix :=
      match g.rep with
      | .adjacencyList => g.adjMatrix
      | .adjacencyMatrix =>
        (List.range g.vertexCapacity).foldl (copyRow g.adjMatrix g.vertexCapacity newCap)
          (newAdjMatrix junk newCap) }

@[simp] theorem grown_vertexCapacity (newCap : ℕ) :
    (g.grown junk newCap).vertexCapacity = newCap := rfl

theorem grown_adjLists (hrep : g.rep = .adjacencyList) (newCap u : ℕ) :
    (g.grown junk newCap).adjLists u = if u < g.vertexCapacity then g.adjLists u else none := by
  rw [grown, hrep]

theorem grown_adjMatrix (hrep : g.rep = .adjacencyMatrix) (newCap : ℕ) :
    (g.grown junk newCap).adjMatrix =
      (List.range g.vertexCapacity).foldl (copyRow g.adjMatrix g.vertexCapacity newCap)
        (newAdjMatrix junk newCap) := by
  rw [grown, hrep]

/-- A growth makes no new lists. -/
theorem adjLists_of_grown {newCap u : ℕ} {adj : ArrayList GraphEdge}
    (h : (g.grown junk newCap).adjLists u = some adj) : g.adjLists u = some adj := by
  cases hrep : g.rep with
  | adjacencyList =>
    rw [grown_adjLists junk hrep] at h
    split at h
    · exact h
    · exact absurd h (by simp)
  | adjacencyMatrix =>
    rw [grown, hrep] at h
    exact h

/-- The new arrays, or the old graph when one of them cannot be had. -/
theorem reallocate_cases (g : GraphImpl) (newCap : ℕ) (a : Allocator) :
    ((∃ k < 3, a.outcome k = false) ∧ (g.reallocate junk newCap a).1 = g) ∨
      ((∀ k < 3, a.outcome k = true) ∧
        (g.reallocate junk newCap a).1 = g.grown junk newCap) := by
  rw [reallocate]
  dsimp only [Allocator.alloc]
  by_cases htwo : a.outcome 0 = true ∧ a.outcome 1 = true
  · rw [if_neg (by simp [htwo.1, htwo.2])]
    cases hthree : a.outcome 2 with
    | false =>
      rw [if_pos (by simp)]
      exact .inl ⟨⟨2, by norm_num, hthree⟩, rfl⟩
    | true =>
      rw [if_neg (by simp)]
      refine .inr ⟨fun k hk => ?_, ?_⟩
      · rcases (by omega : k = 0 ∨ k = 1 ∨ k = 2) with rfl | rfl | rfl
        · exact htwo.1
        · exact htwo.2
        · exact hthree
      · rw [grown]
        cases g.rep <;> rfl
  · rw [if_pos (by simpa [or_iff_not_imp_left] using htwo)]
    rcases not_and_or.mp htwo with hzero | hone
    · exact .inl ⟨⟨0, by norm_num, Bool.eq_false_iff.mpr hzero⟩, rfl⟩
    · exact .inl ⟨⟨1, by norm_num, Bool.eq_false_iff.mpr hone⟩, rfl⟩

/-- What `graph_ensure_capacity` does: nothing, or a growth to what the loop returns. -/
theorem ensureCapacity_cases (h : g.ensureCapacity junk id a = some (g', a')) :
    (g' = g ∧ (0 ≤ id → int32 (id + 1) ≤ g.vertexCapacity)) ∨
      ∃ newCap : ℤ, 0 ≤ id ∧ g.vertexCapacity < int32 (id + 1) ∧
        doubleUntil 64 (if g.vertexCapacity > 0 then g.vertexCapacity else 8)
          (int32 (id + 1)) = some newCap ∧
        g' = (g.reallocate junk newCap.toNat a).1 := by
  rw [ensureCapacity] at h
  split at h
  · next hneg =>
    obtain ⟨rfl, -⟩ := Prod.mk.inj (Option.some.inj h)
    exact .inl ⟨rfl, fun hid => absurd hneg (not_lt.mpr hid)⟩
  · next hnonneg =>
    dsimp only at h
    split at h
    · next hle =>
      obtain ⟨rfl, -⟩ := Prod.mk.inj (Option.some.inj h)
      exact .inl ⟨rfl, fun _ => hle⟩
    · next hgt =>
      split at h
      · exact absurd h (by simp)
      · next newCap hloop =>
        exact .inr ⟨newCap, not_lt.mp hnonneg, not_le.mp hgt, hloop,
          by rw [Option.some.inj h]⟩

/-! ## Vertices

A vertex can fail to be entered in two ways. The growth may have failed, so that the id is out of
range, or there is no memory for its pointer. -/

/-- What `graph_add_vertex_impl` does: nothing, or a growth, after which the vertex is entered
unless it is out of range or there already. -/
theorem addVertex_cases (h : g.addVertex junk id a = some (g', a')) :
    (g' = g ∧ id < 0) ∨ ∃ g₁ a₁, 0 ≤ id ∧ g.ensureCapacity junk id a = some (g₁, a₁) ∧
      (g' = g₁ ∨ (id.toNat < g₁.vertexCapacity ∧ ¬g₁.present id.toNat = true ∧
        g' = (g₁.enterVertex id.toNat a₁).1)) := by
  rw [addVertex] at h
  split at h
  · next hneg => exact .inl ⟨(Prod.mk.inj (Option.some.inj h)).1.symm, hneg⟩
  · next hnonneg =>
    split at h
    · exact absurd h (by simp)
    · next g₁ a₁ hensure =>
      refine .inr ⟨g₁, a₁, not_lt.mp hnonneg, hensure, ?_⟩
      split at h
      · exact .inl (Prod.mk.inj (Option.some.inj h)).1.symm
      · next hout =>
        obtain ⟨hlt, hnew⟩ := not_or.mp hout
        exact .inr ⟨by omega, hnew, by rw [Option.some.inj h]⟩

/-! ## Edges -/

/-- Only the edges differ. -/
structure EdgesOnly (g g' : GraphImpl) : Prop where
  type : g'.type = g.type
  rep : g'.rep = g.rep
  capacity : g'.vertexCapacity = g.vertexCapacity
  count : g'.vertexCount = g.vertexCount
  present : g'.present = g.present
  ptrs : g'.vertexPtrs = g.vertexPtrs

theorem EdgesOnly.refl (g : GraphImpl) : EdgesOnly g g := ⟨rfl, rfl, rfl, rfl, rfl, rfl⟩

theorem EdgesOnly.trans {g'' : GraphImpl} (h : EdgesOnly g g') (h' : EdgesOnly g' g'') :
    EdgesOnly g g'' :=
  ⟨h'.type.trans h.type, h'.rep.trans h.rep, h'.capacity.trans h.capacity,
    h'.count.trans h.count, h'.present.trans h.present, h'.ptrs.trans h.ptrs⟩

theorem edgesOnly_addOneEdge (g : GraphImpl) (u v : ℕ) (w : WithTop ℚ) (a : Allocator) :
    EdgesOnly g (g.addOneEdge u v w a).1 := by
  have hensure : EdgesOnly g (g.ensureAdjList u a).2.1 := by
    rw [ensureAdjList]
    split
    · exact .refl g
    · exact ⟨rfl, rfl, rfl, rfl, rfl, rfl⟩
  rw [addOneEdge]
  split
  · next heq =>
    rw [heq] at hensure
    exact hensure
  · next heq =>
    rw [heq] at hensure
    exact hensure.trans ⟨rfl, rfl, rfl, rfl, rfl, rfl⟩

theorem edgesOnly_adjListAddEdge (g : GraphImpl) (u v : ℕ) (w : WithTop ℚ) (a : Allocator) :
    EdgesOnly g (g.adjListAddEdge u v w a).1 := by
  have hone := edgesOnly_addOneEdge g u v w a
  rw [adjListAddEdge]
  dsimp only
  split
  · exact hone.trans (edgesOnly_addOneEdge _ _ _ _ _)
  · exact hone

theorem edgesOnly_removeOneEdge (g : GraphImpl) (u v : ℕ) : EdgesOnly g (g.removeOneEdge u v) := by
  rw [removeOneEdge]
  split
  · exact .refl g
  · exact ⟨rfl, rfl, rfl, rfl, rfl, rfl⟩

theorem edgesOnly_setCells (g : GraphImpl) (u v : ℕ) (w : WithTop ℚ) :
    EdgesOnly g (g.setCells u v w) := by
  rw [setCells]
  split <;> exact ⟨rfl, rfl, rfl, rfl, rfl, rfl⟩

theorem edgesOnly_removeEdge (g : GraphImpl) (x y : ℤ) : EdgesOnly g (g.removeEdge x y) := by
  rw [removeEdge]
  split
  · exact .refl g
  · split
    · rw [adjListRemoveEdge]
      split
      · exact (edgesOnly_removeOneEdge g _ _).trans (edgesOnly_removeOneEdge _ _ _)
      · exact edgesOnly_removeOneEdge g _ _
    · exact edgesOnly_setCells g _ _ _

/-- What `graph_add_edge_impl` does: nothing, or both vertices are entered, after which the edge is
written if they are there. -/
theorem addEdge_cases {u v : ℤ} {w : WithTop ℚ} (h : g.addEdge junk u v w a = some (g', a')) :
    (g' = g ∧ (u < 0 ∨ v < 0)) ∨ ∃ g₁ a₁ g₂ a₂, 0 ≤ u ∧ 0 ≤ v ∧
      g.addVertex junk u a = some (g₁, a₁) ∧ g₁.addVertex junk v a₁ = some (g₂, a₂) ∧
        (g' = g₂ ∨ (g₂.hasVertex u = true ∧ g₂.hasVertex v = true ∧
          ((g₂.rep = .adjacencyList ∧ g' = (g₂.adjListAddEdge u.toNat v.toNat w a₂).1) ∨
            (g₂.rep = .adjacencyMatrix ∧ g' = g₂.setCells u.toNat v.toNat w)))) := by
  rw [addEdge] at h
  split at h
  · next hneg => exact .inl ⟨(Prod.mk.inj (Option.some.inj h)).1.symm, hneg⟩
  · split at h
    · exact absurd h (by simp)
    · next g₁ a₁ hg₁ =>
      split at h
      · exact absurd h (by simp)
      · next g₂ a₂ hg₂ =>
        refine .inr ⟨g₁, a₁, g₂, a₂, by omega, by omega, hg₁, hg₂, ?_⟩
        split at h
        · exact .inl (Prod.mk.inj (Option.some.inj h)).1.symm
        · next hboth =>
          simp only [Bool.or_eq_true, Bool.not_eq_true', not_or, Bool.not_eq_false] at hboth
          refine .inr ⟨hboth.1, hboth.2, ?_⟩
          split at h
          · next hrep => exact .inl ⟨hrep, by rw [Option.some.inj h]⟩
          · next hrep => exact .inr ⟨hrep, (Prod.mk.inj (Option.some.inj h)).1.symm⟩

end GraphImpl

/-! ## Whole runs -/

section Runs

variable (junk : ℤ → WithTop ℚ) {g g' : GraphImpl} {a a' : Allocator}

/-- A new graph, if there is memory for it. -/
theorem create_eq_some {type : GraphType} {rep : GraphRepresentation} {ts : TraversalStrategy}
    {ms : MinPathStrategy} (h : (GraphImpl.create junk type rep ts ms a).1 = some g) :
    g = ⟨type, rep, ts, ms, 8, 0, fun _ => false, fun _ => none, fun _ => none,
      GraphImpl.newAdjMatrix junk 8⟩ := by
  rw [GraphImpl.create] at h
  dsimp only at h
  split at h
  · exact absurd h (by simp)
  · split at h
    · exact absurd h (by simp)
    · split at h
      · exact absurd h (by simp)
      · split at h
        · exact absurd h (by simp)
        · exact (Option.some.inj h).symm

/-- What every call keeps, a run keeps. By induction on the calls. -/
theorem runCalls_induction {P : GraphImpl → Prop}
    (hrun : ∀ g a c g' a', P g → Call.run junk g a c = some (g', a') → P g') {calls : List Call}
    (hg : P g) (h : runCalls junk g a calls = some (g', a')) : P g' := by
  induction calls generalizing g a with
  | nil =>
    obtain ⟨rfl, -⟩ := Prod.mk.inj (Option.some.inj h)
    exact hg
  | cons c cs ih =>
    rw [runCalls] at h
    split at h
    · exact absurd h (by simp)
    · next g₁ a₁ hstep => exact ih (hrun g a c g₁ a₁ hg hstep) h

/-- **What a new graph has and every call keeps, every graph has.** -/
theorem build_induction {P : GraphImpl → Prop} {type : GraphType} {rep : GraphRepresentation}
    {ts : TraversalStrategy} {ms : MinPathStrategy} {calls : List Call}
    (hnew : ∀ g a, (GraphImpl.create junk type rep ts ms a).1 = some g → P g)
    (hrun : ∀ g a c g' a', P g → Call.run junk g a c = some (g', a') → P g')
    (h : build junk type rep ts ms a calls = some (g, a')) : P g := by
  rw [build] at h
  split at h
  · exact absurd h (by simp)
  · next g₀ a₀ hcreate => exact runCalls_induction junk hrun (hnew g₀ a (by rw [hcreate])) h

end Runs

end Graph

end OvaLib
