import OvaLib.Foundation.Circuits
import OvaLib.Graph.ConnectedComponents
import OvaLib.Graph.TopologicalSort

/-!
# Cycles in undirected graphs

`graph_has_cycle_impl` on an undirected graph. The edges to vertices that the search has not come to
form a forest. An edge to another vertex that is not the parent is one that the forest does not
need, since its ends are joined already; and when there is none, the forest has every edge.

## Which edges count

An edge of an undirected graph is an unordered pair, here the pair in ascending order; a loop is a
pair of equal ids and is a circuit by itself. The search sees every other edge from both of its
ends. It is told the parent of the vertex it comes to, and passes over the edge to that parent
without a look. Since the neighbours of a vertex are distinct, the edge to the parent is one edge,
so that nothing else is passed over.

## How the proof goes

A search adds to a forest: `Tree` describes the forest that was built so far, and `Extends` what a
part of the search adds to it. Either the part ends with every edge of the vertices that it visited
in the forest, or it found an edge that the forest does not need. The second case is final, as no
graph with such an edge is a forest.

The answer is stated twice, as the existence of a circuit and by counting: a graph is a forest
exactly when it has as many edges as vertices less its components. The counting statement needs
nothing of the search.

## Main results

* `Tree.not_forest` — an edge the forest does not need
* `hasCycleUndirectedDfs_spec` — one call of the search, with the calls it makes
* `hasCycle_undirected` — the function finds circuits, which are the edges too many
-/

namespace OvaLib

namespace Graph

open Foundation Relation

/-! ## Edges

The forest and the graph are sets of ascending pairs, so that an edge is in them once. -/

/-- The pair that stands for an undirected edge. -/
def edge (u v : ℕ) : ℕ × ℕ := (min u v, max u v)

theorem edge_comm (u v : ℕ) : edge u v = edge v u := by
  rw [edge, edge, min_comm, max_comm]

theorem edge_cases (u v : ℕ) : edge u v = (u, v) ∨ edge u v = (v, u) := by
  rcases le_total u v with h | h
  · exact .inl (Prod.ext (min_eq_left h) (max_eq_right h))
  · exact .inr (Prod.ext (min_eq_right h) (max_eq_left h))

/-- What holds of the ends of an edge, in whichever order. -/
theorem edge_iff {R : ℕ → ℕ → Prop} (hR : ∀ a b, R a b → R b a) (u v : ℕ) :
    R (edge u v).1 (edge u v).2 ↔ R u v := by
  rcases edge_cases u v with h | h
  · rw [h]
  · rw [h]
    exact ⟨hR v u, hR u v⟩

theorem forall_edge_iff {P : ℕ → Prop} (u v : ℕ) :
    P (edge u v).1 ∧ P (edge u v).2 ↔ P u ∧ P v :=
  edge_iff (R := fun a b => P a ∧ P b) (fun _ _ => And.symm) u v

theorem joined_edge_iff {T : Set (ℕ × ℕ)} (u v : ℕ) :
    Joined id T (edge u v).1 (edge u v).2 ↔ Joined id T u v :=
  edge_iff (R := Joined id T) (fun _ _ h => h.symm) u v

theorem edge_right_inj {u v w : ℕ} (h : edge u v = edge u w) : v = w := by
  rcases edge_cases u v with hv | hv <;> rcases edge_cases u w with hw | hw <;>
    rw [hv, hw] at h <;> obtain ⟨h₁, h₂⟩ := Prod.mk.inj h <;> omega

/-- The edges of an undirected graph, each once. -/
def GraphImpl.undirectedEdges (g : GraphImpl) : Finset (ℕ × ℕ) :=
  (g.vertices ×ˢ g.vertices).filter fun p => p.1 ≤ p.2 ∧ g.hasEdge p.1 p.2 = true

variable {g : GraphImpl}

theorem mem_undirectedEdges (hsymm : ∀ u v, HasEdge g u v → HasEdge g v u) {u v : ℕ} :
    edge u v ∈ g.undirectedEdges ↔ HasEdge g u v := by
  rw [GraphImpl.undirectedEdges, Finset.mem_filter, Finset.mem_product]
  have hle : (edge u v).1 ≤ (edge u v).2 := min_le_max
  constructor
  · rintro ⟨-, -, hedge⟩
    rcases edge_cases u v with h | h
    · rwa [h] at hedge
    · rw [h] at hedge
      exact hsymm v u hedge
  · intro hedge
    rcases edge_cases u v with h | h
    · rw [h] at hle ⊢
      exact ⟨⟨hedge.mem_left, hedge.mem_right⟩, hle, hedge⟩
    · rw [h] at hle ⊢
      exact ⟨⟨hedge.mem_right, hedge.mem_left⟩, hle, hsymm u v hedge⟩

theorem eq_edge {p : ℕ × ℕ} (hp : p ∈ g.undirectedEdges) : p = edge p.1 p.2 := by
  obtain ⟨-, hle, -⟩ := Finset.mem_filter.mp hp
  exact Prod.ext (min_eq_left hle).symm (max_eq_right hle).symm

theorem isSimple_undirectedEdges (g : GraphImpl) :
    IsSimple id (g.undirectedEdges : Set (ℕ × ℕ)) := by
  intro e he f hf hends
  rw [eq_edge (Finset.mem_coe.mp hf), eq_edge (Finset.mem_coe.mp he)]
  rcases hends with hends | hends
  · rw [show f = e from hends]
  · rw [show f = e.swap from hends]
    exact edge_comm e.2 e.1

theorem adjacent_iff (hsymm : ∀ u v, HasEdge g u v → HasEdge g v u) (u v : ℕ) :
    Adjacent id (g.undirectedEdges : Set (ℕ × ℕ)) u v ↔ HasEdge g u v := by
  constructor
  · rintro ⟨e, he, hends⟩
    have hedge := (Finset.mem_filter.mp (Finset.mem_coe.mp he)).2.2
    rcases hends with hends | hends <;> rw [show e = _ from hends] at hedge
    · exact hedge
    · exact hsymm v u hedge
  · intro hedge
    exact ⟨edge u v, (mem_undirectedEdges hsymm).mpr hedge, edge_cases u v⟩

/-! ## The forest of a search

Earlier searches have left a forest of their own, which is kept and not looked at again. -/

/-- A search from `root` has come to the vertices `visited`, of which it found `before` visited, and
the edges it took there are `T`. -/
structure Tree (g : GraphImpl) (before : Set ℕ) (root : ℕ) (visited : Set ℕ) (T : Set (ℕ × ℕ)) :
    Prop where
  subset : T ⊆ g.undirectedEdges
  forest : IsEdgeForest id T
  /-- The forest has only edges of vertices the search has come to. -/
  ends_mem : ∀ e ∈ T, e.1 ∈ visited ∧ e.2 ∈ visited
  joined : ∀ u ∈ visited, u ∉ before → Joined id T root u

namespace Tree

variable {before visited : Set ℕ} {root u v w : ℕ} {T : Set (ℕ × ℕ)}

theorem mem_of_edge (h : Tree g before root visited T) (huv : edge u v ∈ T) :
    u ∈ visited ∧ v ∈ visited :=
  (forall_edge_iff u v).mp (h.ends_mem _ huv)

/-- **An edge the forest does not need**: the graph is no forest. -/
theorem not_forest (hsymm : ∀ u v, HasEdge g u v → HasEdge g v u)
    (h : Tree g before root visited T) (hu : u ∈ visited) (hub : u ∉ before) (hv : v ∈ visited)
    (hvb : v ∉ before) (huv : HasEdge g u v) (hnot : edge u v ∉ T) :
    ¬ IsEdgeForest id (g.undirectedEdges : Set (ℕ × ℕ)) := by
  intro hforest
  have hjoined : Joined id T u v := (h.joined u hu hub).symm.trans (h.joined v hv hvb)
  have hsub : T ⊆ (g.undirectedEdges : Set (ℕ × ℕ)) \ {edge u v} := fun e he =>
    ⟨h.subset he, fun heq => hnot (heq ▸ he)⟩
  exact hforest (edge u v) ((mem_undirectedEdges hsymm).mpr huv)
    ((joined_edge_iff u v).mpr (hjoined.mono hsub))

/-- **The search goes on** from `v` to a vertex it has not come to. -/
theorem grow (hsymm : ∀ u v, HasEdge g u v → HasEdge g v u) (h : Tree g before root visited T)
    (hv : v ∈ visited) (hvb : v ∉ before) (hw : w ∉ visited) (hvw : HasEdge g v w) :
    Tree g before root (insert w visited) (insert (edge v w) T) := by
  have hisolated : ¬ Joined id T v w := by
    intro hjoined
    have hiff : v = w ↔ w = w := by
      refine hjoined.of_equivalence (R := fun a b => a = w ↔ b = w)
        ⟨fun _ => Iff.rfl, Iff.symm, Iff.trans⟩ fun e he => ?_
      obtain ⟨h₁, h₂⟩ := h.ends_mem e he
      exact iff_of_false (fun heq => hw (heq ▸ h₁)) fun heq => hw (heq ▸ h₂)
    exact hw (hiff.mpr rfl ▸ hv)
  have hedge : Joined id (insert (edge v w) T) v w :=
    (joined_edge_iff v w).mp (.of_mem (Set.mem_insert _ T))
  have hsub : T ⊆ insert (edge v w) T := Set.subset_insert _ T
  refine ⟨?_, h.forest.insert_edge (mt (joined_edge_iff v w).mp hisolated), fun e he => ?_,
    fun u hu hub => ?_⟩
  · exact Set.insert_subset ((mem_undirectedEdges hsymm).mpr hvw) h.subset
  · rcases he with rfl | he
    · exact (forall_edge_iff v w).mpr ⟨.inr hv, .inl rfl⟩
    · exact ⟨.inr (h.ends_mem e he).1, .inr (h.ends_mem e he).2⟩
  · rcases hu with rfl | hu
    · exact ((h.joined v hv hvb).mono hsub).trans hedge
    · exact (h.joined u hu hub).mono hsub

/-- A vertex that the search just came to has one edge in the forest, the one to its parent. -/
theorem edge_back_iff (h : Tree g before root visited T) (hw : w ∉ visited) (x : ℕ) :
    edge w x ∈ insert (edge v w) T ↔ (x : ℤ) = v := by
  constructor
  · rintro (hx | hx)
    · rw [edge_comm v w] at hx
      exact congrArg Int.ofNat (edge_right_inj hx)
    · exact absurd (h.mem_of_edge hx).1 hw
  · intro hx
    obtain rfl : x = v := by exact_mod_cast hx
    exact .inl (edge_comm _ _)

end Tree

/-! ## The search -/

/-- The loop over the edges out of a vertex comes to each neighbour once. -/
theorem nodup_heads (hwf : WellFormed g) (v : ℕ) : (heads g v).Nodup := by
  rw [heads, GraphImpl.outEdges]
  cases g.rep with
  | adjacencyList =>
    dsimp only
    cases hadj : g.adjLists v with
    | none => exact List.nodup_nil
    | some adj =>
      obtain ⟨M, hedges⟩ := hwf.edges v adj hadj
      dsimp only
      rw [List.map_map]
      exact hedges.nodup.sublist (List.filter_sublist.map _)
  | adjacencyMatrix =>
    dsimp only
    refine List.Nodup.sublist (List.filter_sublist.map _) ?_
    rw [List.map_map]
    exact (List.nodup_range.filter _).map fun _ _ h => h

/-- The vertices that an array marks. -/
def marked (visited : ℕ → Bool) : Set ℕ := {u | visited u = true}

theorem marked_update (visited : ℕ → Bool) (v : ℕ) :
    marked (Function.update visited v true) = insert v (marked visited) := by
  ext u
  exact update_true_iff visited v u

/-- The vertices that an array does not mark. -/
def unmarked (g : GraphImpl) (visited : ℕ → Bool) : Finset ℕ :=
  g.vertices.filter fun u => visited u = false

theorem unmarked_subset {visited visited' : ℕ → Bool} (h : marked visited ⊆ marked visited') :
    unmarked g visited' ⊆ unmarked g visited := by
  intro u hu
  obtain ⟨hu, hfalse⟩ := Finset.mem_filter.mp hu
  refine Finset.mem_filter.mpr ⟨hu, ?_⟩
  by_contra htrue
  rw [Bool.not_eq_false] at htrue
  exact Bool.false_ne_true (hfalse.symm.trans (h htrue))

/-- What a part of a search adds to the marks `visited` and the forest `T`: it takes every edge of
the vertices it comes to, and no other edge but those of `T`. -/
structure Extends (g : GraphImpl) (before : Set ℕ) (root : ℕ) (old visited visited' : Set ℕ)
    (T T' : Set (ℕ × ℕ)) : Prop where
  tree : Tree g before root visited' T'
  visited_subset : visited ⊆ visited'
  edges_subset : T ⊆ T'
  /-- No new edge has an end among the vertices `old`. -/
  fresh : ∀ e ∈ T', e ∈ T ∨ e.1 ∉ old ∧ e.2 ∉ old
  /-- Whatever was visited in this part has all its edges in the forest. -/
  closed : ∀ u ∈ visited', u ∉ visited → ∀ w, HasEdge g u w → edge u w ∈ T'

namespace Extends

variable {before old visited visited₁ visited₂ : Set ℕ} {root v w x : ℕ} {T T₁ T₂ : Set (ℕ × ℕ)}

/-- Of the edges of `v`, the call for `w` has taken the one to `w` and no other. -/
theorem edge_mem_iff (h : Extends g before root visited visited visited₁ (insert (edge v w) T) T₁)
    (hv : v ∈ visited) (hx : x ≠ w) : edge v x ∈ T₁ ↔ edge v x ∈ T := by
  refine ⟨fun hmem => ?_, fun hmem => h.edges_subset (.inr hmem)⟩
  rcases h.fresh _ hmem with (heq | hmem) | hnot
  · exact absurd (edge_right_inj heq) hx
  · exact hmem
  · exact absurd hv ((forall_edge_iff (P := (· ∉ visited)) v x).mp hnot).1

/-- **A call for `w`, and the rest of the loop** over the edges out of `v`. -/
theorem call_trans
    (h₁ : Extends g before root visited visited visited₁ (insert (edge v w) T) T₁)
    (h₂ : Extends g before root old visited₁ visited₂ T₁ T₂) (hold : old ⊆ visited)
    (hv : v ∉ old) (hw : w ∉ visited) : Extends g before root old visited visited₂ T T₂ where
  tree := h₂.tree
  visited_subset := h₁.visited_subset.trans h₂.visited_subset
  edges_subset _ he := h₂.edges_subset (h₁.edges_subset (.inr he))
  fresh e he := by
    rcases h₂.fresh e he with he | he
    · rcases h₁.fresh e he with (rfl | he) | ⟨hnot₁, hnot₂⟩
      · exact .inr ((forall_edge_iff (P := (· ∉ old)) v w).mpr ⟨hv, fun hmem => hw (hold hmem)⟩)
      · exact .inl he
      · exact .inr ⟨fun hmem => hnot₁ (hold hmem), fun hmem => hnot₂ (hold hmem)⟩
    · exact .inr he
  closed u hu hnot y huy := by
    by_cases hu₁ : u ∈ visited₁
    · exact h₂.edges_subset (h₁.closed u hu₁ hnot y huy)
    · exact h₂.closed u hu hu₁ y huy

end Extends

/-- What one call for `v` does, with the edge to the parent taken. -/
def CallSpec (g : GraphImpl) (dfs : (ℕ → Bool) → ℕ → Option (Bool × (ℕ → Bool))) (parent : ℤ)
    (room : ℕ) : Prop :=
  ∀ {before : Set ℕ} {root v : ℕ} {visited : ℕ → Bool} {T : Set (ℕ × ℕ)},
    (∀ u w, HasEdge g u w → u ∉ before → w ∉ before) → before ⊆ marked visited →
    v ∈ g.vertices → v ∉ marked visited → Tree g before root (insert v (marked visited)) T →
    (∀ w, HasEdge g v w → (edge v w ∈ T ↔ (w : ℤ) = parent)) →
    (unmarked g visited).card ≤ room →
    ∃ found visited', dfs visited v = some (found, visited') ∧
      ((found = true ∧ ¬ IsEdgeForest id (g.undirectedEdges : Set (ℕ × ℕ))) ∨
        (found = false ∧ ∃ T', Extends g before root (marked visited) (marked visited)
          (marked visited') T T' ∧ v ∈ marked visited'))

section Search

variable {before old : Set ℕ} {root v room : ℕ} {parent : ℤ} {T : Set (ℕ × ℕ)}

/-- The loop over the edges out of `v`, by induction on the edges still to come. -/
theorem followUndirected_spec (hsymm : ∀ u v, HasEdge g u v → HasEdge g v u)
    {dfs : (ℕ → Bool) → ℕ → Option (Bool × (ℕ → Bool))} (hdfs : CallSpec g dfs v room)
    (hbefore : ∀ u w, HasEdge g u w → u ∉ before → w ∉ before) (hvb : v ∉ before)
    (hold : v ∉ old) :
    ∀ {es : List (ℕ × WithTop ℚ)} {visited : ℕ → Bool} {T : Set (ℕ × ℕ)},
      Tree g before root (marked visited) T → before ⊆ marked visited → v ∈ marked visited →
      old ⊆ marked visited → (∀ e ∈ es, HasEdge g v e.1) → (es.map Prod.fst).Nodup →
      (∀ e ∈ es, (edge v e.1 ∈ T ↔ (e.1 : ℤ) = parent)) → (unmarked g visited).card ≤ room →
      ∃ found visited', GraphImpl.followUndirected dfs parent es visited = some (found, visited') ∧
        ((found = true ∧ ¬ IsEdgeForest id (g.undirectedEdges : Set (ℕ × ℕ))) ∨
          (found = false ∧ ∃ T', Extends g before root old (marked visited) (marked visited') T T' ∧
            ∀ e ∈ es, edge v e.1 ∈ T')) := by
  intro es
  induction es with
  | nil =>
    intro visited T h _ _ _ _ _ _ _
    refine ⟨false, visited, rfl, .inr ⟨rfl, T, ⟨h, subset_rfl, subset_rfl, fun e he => .inl he,
      fun u hu hnot => absurd hu hnot⟩, fun e he => absurd he List.not_mem_nil⟩⟩
  | cons e es ih =>
    intro visited T h hsub hv holdsub hes hnodup hparent hroom
    have he := hes e List.mem_cons_self
    have hes' : ∀ e' ∈ es, HasEdge g v e'.1 := fun e' he' => hes e' (List.mem_cons_of_mem _ he')
    rw [List.map_cons, List.nodup_cons] at hnodup
    rw [GraphImpl.followUndirected]
    by_cases hnew : visited e.1 = false
    · -- the search goes on to the head
      have hw : e.1 ∉ marked visited := fun hmem => Bool.false_ne_true (hnew.symm.trans hmem)
      have hgrown := h.grow hsymm hv hvb hw he
      obtain ⟨found, visited₁, hcall, hres⟩ :=
        hdfs hbefore hsub he.mem_right hw hgrown (fun x _ => h.edge_back_iff hw x) hroom
      rw [hnew, Bool.not_false, if_pos rfl, hcall]
      rcases hres with ⟨rfl, hcycle⟩ | ⟨rfl, T₁, h₁, -⟩
      · exact ⟨true, visited₁, rfl, .inl ⟨rfl, hcycle⟩⟩
      · -- of the edges of `v`, the call has only taken the one to its own vertex
        have htaken : ∀ e' ∈ es, edge v e'.1 ∈ T₁ ↔ (e'.1 : ℤ) = parent := by
          intro e' he'
          have hne : e'.1 ≠ e.1 := fun heq => hnodup.1 (heq ▸ List.mem_map_of_mem he')
          exact (h₁.edge_mem_iff hv hne).trans (hparent e' (List.mem_cons_of_mem _ he'))
        obtain ⟨found, visited₂, hloop, hres₂⟩ := ih h₁.tree (hsub.trans h₁.visited_subset)
          (h₁.visited_subset hv) (holdsub.trans h₁.visited_subset) hes' hnodup.2 htaken
          ((Finset.card_le_card (unmarked_subset h₁.visited_subset)).trans hroom)
        refine ⟨found, visited₂, hloop, hres₂.imp_right ?_⟩
        rintro ⟨hfound, T₂, h₂, hall⟩
        refine ⟨hfound, T₂, h₁.call_trans h₂ holdsub hold hw, fun e' he' => ?_⟩
        rcases List.mem_cons.mp he' with rfl | he'
        · exact h₂.edges_subset (h₁.edges_subset (.inl rfl))
        · exact hall e' he'
    · rw [Bool.not_eq_false] at hnew
      rw [hnew, Bool.not_true, if_neg Bool.false_ne_true]
      by_cases hne : (e.1 : ℤ) ≠ parent
      · -- the head is not the parent, so this is an edge that the forest does not need
        rw [if_pos hne]
        refine ⟨true, visited, rfl, .inl ⟨rfl, ?_⟩⟩
        exact h.not_forest hsymm hv hvb hnew (hbefore v e.1 he hvb) he
          (mt (hparent e List.mem_cons_self).mp hne)
      · rw [if_neg hne]
        obtain ⟨found, visited₂, hloop, hres₂⟩ := ih h hsub hv holdsub hes' hnodup.2
          (fun e' he' => hparent e' (List.mem_cons_of_mem _ he')) hroom
        refine ⟨found, visited₂, hloop, hres₂.imp_right ?_⟩
        rintro ⟨hfound, T₂, h₂, hall⟩
        refine ⟨hfound, T₂, h₂, fun e' he' => ?_⟩
        rcases List.mem_cons.mp he' with rfl | he'
        · exact h₂.edges_subset ((hparent e' List.mem_cons_self).mpr (not_not.mp hne))
        · exact hall e' he'

/-- **A call of `has_cycle_undirected_dfs`**, by induction on the fuel: every call comes to a
vertex. -/
theorem hasCycleUndirectedDfs_spec (hwf : WellFormed g)
    (hsymm : ∀ u v, HasEdge g u v → HasEdge g v u) :
    ∀ (fuel : ℕ) (parent : ℤ), CallSpec g (g.hasCycleUndirectedDfs fuel parent) parent fuel := by
  intro fuel
  induction fuel with
  | zero =>
    intro parent before root v visited T _ _ hv hnew _ _ hroom
    have hmem : v ∈ unmarked g visited :=
      Finset.mem_filter.mpr ⟨hv, (Bool.not_eq_true _).mp hnew⟩
    exact absurd (Finset.card_pos.mpr ⟨v, hmem⟩) (by omega)
  | succ fuel ih =>
    intro parent before root v visited T hbefore hsub hv hnew h hparent hroom
    have hmarked := marked_update visited v
    have hroom' : (unmarked g (Function.update visited v true)).card ≤ fuel := by
      have hlt : (unmarked g (Function.update visited v true)).card <
          (unmarked g visited).card := by
        refine Finset.card_lt_card (Finset.ssubset_iff_of_subset (unmarked_subset ?_) |>.mpr
          ⟨v, Finset.mem_filter.mpr ⟨hv, (Bool.not_eq_true _).mp hnew⟩, ?_⟩)
        · rw [hmarked]
          exact Set.subset_insert v _
        · simp [unmarked]
      omega
    have hedges : ∀ e ∈ g.outEdges v, HasEdge g v e.1 := fun e he =>
      (mem_outEdges_fst hwf hv).mp (List.mem_map_of_mem he)
    obtain ⟨found, visited', hloop, hres⟩ := followUndirected_spec hsymm (ih v) hbefore
      (fun hvb => hnew (hsub hvb)) hnew (hmarked ▸ h)
      (hmarked ▸ hsub.trans (Set.subset_insert v _)) (hmarked ▸ Set.mem_insert v _)
      (hmarked ▸ Set.subset_insert v _) hedges (nodup_heads hwf v)
      (fun e he => hparent e.1 (hedges e he)) hroom'
    rw [GraphImpl.hasCycleUndirectedDfs, hloop]
    rcases hres with ⟨rfl, hcycle⟩ | ⟨rfl, T', h', hall⟩
    · exact ⟨true, visited', rfl, .inl ⟨rfl, hcycle⟩⟩
    · have hv' : v ∈ marked visited' := h'.visited_subset (hmarked ▸ Set.mem_insert v _)
      refine ⟨false, visited', rfl, .inr ⟨rfl, T', ⟨h'.tree, ?_, h'.edges_subset, h'.fresh,
        fun u hu hnot w huw => ?_⟩, hv'⟩⟩
      · exact (Set.subset_insert v _).trans (hmarked ▸ h'.visited_subset)
      · by_cases huv : u = v
        · subst huv
          obtain ⟨e, he, rfl⟩ := List.mem_map.mp ((mem_outEdges_fst hwf hv).mpr huw)
          exact hall e he
        · refine h'.closed u hu ?_ w huw
          rw [hmarked]
          exact fun hmem => hmem.elim huv hnot

end Search

/-! ## The loop over the vertices

Between two searches there is no path and no root. -/

/-- What holds between two searches: the forest has every edge of the vertices visited. -/
structure Settled (g : GraphImpl) (visited : Set ℕ) (T : Set (ℕ × ℕ)) : Prop where
  subset : T ⊆ g.undirectedEdges
  forest : IsEdgeForest id T
  ends_mem : ∀ e ∈ T, e.1 ∈ visited ∧ e.2 ∈ visited
  closed : ∀ u ∈ visited, ∀ w, HasEdge g u w → edge u w ∈ T

namespace Settled

variable {visited : Set ℕ} {T : Set (ℕ × ℕ)} {v w : ℕ}

/-- The next search has only come to its root. -/
theorem tree (h : Settled g visited T) (v : ℕ) : Tree g visited v (insert v visited) T where
  subset := h.subset
  forest := h.forest
  ends_mem e he := ⟨.inr (h.ends_mem e he).1, .inr (h.ends_mem e he).2⟩
  joined u hu hnot := by
    rw [hu.resolve_right hnot]
    exact .refl T v

theorem mem_of_edge (h : Settled g visited T) (hv : v ∈ visited) (hvw : HasEdge g v w) :
    w ∈ visited :=
  ((forall_edge_iff v w).mp (h.ends_mem _ (h.closed v hv w hvw))).2

/-- A search is over. -/
theorem extend {root : ℕ} {visited' : Set ℕ} {T' : Set (ℕ × ℕ)} (h : Settled g visited T)
    (h' : Extends g visited root visited visited visited' T T') : Settled g visited' T' where
  subset := h'.tree.subset
  forest := h'.tree.forest
  ends_mem := h'.tree.ends_mem
  closed u hu w huw := by
    by_cases hold : u ∈ visited
    · exact h'.edges_subset (h.closed u hold w huw)
    · exact h'.closed u hu hold w huw

end Settled

/-- The loop over the vertices visits every one of them, or finds an edge too many. -/
theorem cycleFromUndirected_spec (hwf : WellFormed g)
    (hsymm : ∀ u v, HasEdge g u v → HasEdge g v u) {fuel : ℕ} (hfuel : g.vertexCount ≤ fuel) :
    ∀ {vs : List ℕ} {visited : ℕ → Bool} {T : Set (ℕ × ℕ)}, Settled g (marked visited) T →
      (∀ v ∈ g.vertices, v ∉ vs → v ∈ marked visited) →
      ∃ found, g.cycleFromUndirected fuel vs visited = some found ∧
        (found = true ↔ ¬ IsEdgeForest id (g.undirectedEdges : Set (ℕ × ℕ))) := by
  intro vs
  induction vs with
  | nil =>
    intro visited T h hall
    refine ⟨false, rfl, iff_of_false Bool.false_ne_true (not_not.mpr (h.forest.mono ?_))⟩
    intro p hp
    obtain ⟨hmem, -, hedge⟩ := Finset.mem_filter.mp (Finset.mem_coe.mp hp)
    rw [eq_edge (Finset.mem_coe.mp hp)]
    exact h.closed p.1 (hall p.1 (Finset.mem_product.mp hmem).1 List.not_mem_nil) p.2 hedge
  | cons v vs ih =>
    intro visited T h hall
    rw [GraphImpl.cycleFromUndirected]
    split
    · next hskip =>
      refine ih h fun u hu hnot => ?_
      by_cases huv : u = v
      · subst huv
        rw [GraphImpl.isValidVertex_cast.mpr hu] at hskip
        exact hskip.resolve_left (by simp)
      · exact hall u hu (by simp [huv, hnot])
    · next hnot =>
      obtain ⟨hvalid, hnew⟩ := not_or.mp hnot
      have hv : v ∈ g.vertices := GraphImpl.isValidVertex_cast.mp (by simpa using hvalid)
      have hroom : (unmarked g visited).card ≤ fuel :=
        (Finset.card_filter_le _ _).trans (hwf.count ▸ hfuel)
      -- the root has no parent, and none of its edges was taken
      have hparent : ∀ w, HasEdge g v w → (edge v w ∈ T ↔ (w : ℤ) = -1) := by
        intro w _
        refine iff_of_false (fun hmem => hnew ?_) (by omega)
        exact ((forall_edge_iff v w).mp (h.ends_mem _ hmem)).1
      obtain ⟨found, visited₁, hcall, hres⟩ := hasCycleUndirectedDfs_spec hwf hsymm fuel (-1)
        (fun u w huw hu hw => hu (h.mem_of_edge hw (hsymm u w huw))) subset_rfl hv hnew (h.tree v)
        hparent hroom
      rw [hcall]
      rcases hres with ⟨rfl, hcycle⟩ | ⟨rfl, T₁, h₁, hv₁⟩
      · exact ⟨true, rfl, iff_of_true rfl hcycle⟩
      · refine ih (h.extend h₁) fun u hu hnot => ?_
        by_cases huv : u = v
        · rw [huv]
          exact hv₁
        · exact h₁.visited_subset (hall u hu (by simp [huv, hnot]))

/-! ## The function -/

/-- The number of connected components. -/
noncomputable def GraphImpl.componentCount (g : GraphImpl) : ℕ :=
  classCount (ReflTransGen (HasEdge g)) g.vertices

/-- **Cycles in undirected graphs.** With allocations succeeding the call returns, and it returns
true exactly when the graph has a loop or a closed path over at least three vertices, which is when
it has more edges than vertices less components. -/
theorem hasCycle_undirected (hg : Built g) (htype : g.type = .undirected)
    (hsymm : ∀ u v, HasEdge g u v → HasEdge g v u) {fuel : ℕ} (hfuel : g.vertexCount ≤ fuel) :
    ∃ found, g.hasCycle fuel Allocator.always = some found ∧
      (found = true ↔ HasCircuit (HasEdge g)) ∧
      (found = true ↔
        (g.vertices.card : ℤ) - g.componentCount < g.undirectedEdges.card) := by
  have hwf := hg.wellFormed
  have hstart : Settled g (marked fun _ => false) ∅ :=
    ⟨Set.empty_subset _, isEdgeForest_empty id, fun e he => absurd he (Set.notMem_empty e),
      fun u hu => absurd hu Bool.false_ne_true⟩
  obtain ⟨found, hloop, hfound⟩ := cycleFromUndirected_spec hwf hsymm hfuel hstart
    fun v hv hnot => absurd (List.mem_range.mpr (GraphImpl.mem_vertices.mp hv).1) hnot
  have hadjacent : Adjacent id (g.undirectedEdges : Set (ℕ × ℕ)) = HasEdge g :=
    funext fun u => funext fun v => propext (adjacent_iff hsymm u v)
  have hcircuit : found = true ↔ HasCircuit (HasEdge g) := by
    rw [hfound, isEdgeForest_iff_not_hasCircuit (isSimple_undirectedEdges g), not_not, hadjacent]
  refine ⟨found, ?_, hcircuit, hcircuit.trans ?_⟩
  · rw [GraphImpl.hasCycle, Allocator.alloc_always, htype]
    exact hloop
  · have hcount := hasCircuit_iff_card_lt id g.vertices g.undirectedEdges
      (isSimple_undirectedEdges g) fun e he =>
        Finset.mem_product.mp (Finset.mem_filter.mp he).1
    rw [hadjacent] at hcount
    rw [hcount, GraphImpl.componentCount]
    omega

/-- A path over three vertices, and the edge that closes it. -/
theorem hasCycle_undirected_triangle :
    ∃ g, build (fun _ => 0) .undirected .adjacencyList .bfs .dijkstra Allocator.always
        [.addEdge 0 1 1, .addEdge 1 20 1, .addEdge 20 0 1] = some (g, Allocator.always) ∧
      ∃ found, g.hasCycle g.vertexCount Allocator.always = some found ∧
        (found = true ↔ HasCircuit (HasEdge g)) ∧
        (found = true ↔
          (g.vertices.card : ℤ) - g.componentCount < g.undirectedEdges.card) := by
  have hscope : ∀ c ∈ [Call.addEdge 0 1 1, .addEdge 1 20 1, .addEdge 20 0 1], c.InScope := by decide
  obtain ⟨g, hg, hrepr, -⟩ :=
    build_represents (fun _ => 0) .undirected .adjacencyList .bfs .dijkstra hscope
  have htype := AbstractGraph.ofCalls_type .undirected
    [.addEdge 0 1 1, .addEdge 1 20 1, .addEdge 20 0 1]
  exact ⟨g, hg, hasCycle_undirected ⟨_, _, _, _, _, _, _, _, hg⟩ (hrepr.type_eq.trans htype)
    (hrepr.hasEdge_symm htype (AbstractGraph.symmetric_ofCalls _ _)) (le_refl _)⟩

end Graph

end OvaLib
