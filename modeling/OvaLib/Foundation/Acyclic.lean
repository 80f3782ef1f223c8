import Mathlib.Algebra.BigOperators.Group.Finset.Basic
import Mathlib.Algebra.Order.BigOperators.Group.Finset
import Mathlib.Data.Fintype.Card
import Mathlib.Data.Set.Finite.Basic
import Mathlib.Data.List.Count
import Mathlib.Logic.Relation
import Mathlib.Order.WellFounded
import Mathlib.Tactic.Common
import OvaLib.Foundation.FiniteSet

/-!
# Cycles and topological orders

A relation on finitely many vertices has a cycle or a topological order. Two algorithms find out
which: counting the edges into each vertex and removing those without any, and a depth-first search
that looks for an edge back to the path it stands on.

## Two invariants

`Removal` describes the first algorithm between any two of its steps. The count of a vertex is the
number of edges into it from vertices that are still there, with those of the vertex removed last
that are still to be taken off, and the vertices with the count zero are those in the queue. When
the queue is empty, every vertex that is left has an edge into it from another one that is left, and
a nonempty finite set in which that is so has a cycle.

`Painting` describes the second. No cycle passes through a vertex the search has left, and no edge
leads from one of these to the path it stands on. An edge to a vertex of the path closes a cycle;
without any, the last vertex can be left.

An order is a list in which the tail of every edge stands before its head. So an edge counts as
often as it does in the graph, and a loop has no order.

## Main results

* `exists_cycle` — a nonempty finite set in which every vertex has a predecessor
* `IsTopologicalOrder.not_hasCycle` — an ordered relation has no cycle
* `Removal.pop`, `Removal.drop`, `Removal.isTopologicalOrder_or` — removing the vertices without
  predecessors
* `Painting.finish`, `Painting.not_hasCycle` — the vertices a depth-first search has left
-/

namespace Foundation

open Relation Finset

variable {V : Type*} {E : V → V → Prop}

/-- Some vertex leads back to itself. -/
def HasCycle (E : V → V → Prop) : Prop := ∃ v, TransGen E v v

/-- Every vertex once, and every edge from an earlier to a later one. -/
structure IsTopologicalOrder (E : V → V → Prop) (vertices : Set V) (l : List V) : Prop where
  nodup : l.Nodup
  mem_iff : ∀ v, v ∈ l ↔ v ∈ vertices
  /-- The tail stands before the head. -/
  edge : ∀ u v, E u v → [u, v].Sublist l

/-- **A nonempty finite set in which every vertex has a predecessor** has a cycle. -/
theorem exists_cycle {s : Set V} (hs : s.Finite) (hne : s.Nonempty)
    (h : ∀ v ∈ s, ∃ u ∈ s, E u v) : HasCycle E := by
  by_contra hnone
  have : Finite s := hs
  let r : s → s → Prop := fun a b => TransGen E a b
  have : IsTrans s r := ⟨fun _ _ _ hab hbc => TransGen.trans hab hbc⟩
  have : Std.Irrefl r := ⟨fun a ha => hnone ⟨a, ha⟩⟩
  have hwf : WellFounded r := Finite.wellFounded_of_trans_of_irrefl r
  obtain ⟨x, hx⟩ := hne
  obtain ⟨m, -, hmin⟩ := hwf.has_min Set.univ ⟨⟨x, hx⟩, trivial⟩
  obtain ⟨u, hu, hum⟩ := h m m.2
  exact hmin ⟨u, hu⟩ trivial (TransGen.single hum)

/-- One vertex stands before another in a list. -/
theorem idxOf_lt_of_sublist [DecidableEq V] {l : List V} (hl : l.Nodup) {u v : V}
    (h : [u, v].Sublist l) : l.idxOf u < l.idxOf v := by
  obtain ⟨front, back, rfl, hu, hv⟩ := List.cons_sublist_iff.mp h
  rw [List.singleton_sublist] at hv
  have hnot : v ∉ front := fun hmem => (List.nodup_append.mp hl).2.2 v hmem v hv rfl
  rw [List.idxOf_append_of_mem hu, List.idxOf_append_of_notMem hnot]
  exact (List.idxOf_lt_length_of_mem hu).trans_le (Nat.le_add_right _ _)

/-- An ordered relation has no cycle. -/
theorem IsTopologicalOrder.not_hasCycle {vertices : Set V} {l : List V}
    (h : IsTopologicalOrder E vertices l) : ¬ HasCycle E := by
  classical
  rintro ⟨v, hv⟩
  have hlt : ∀ {u w}, TransGen E u w → l.idxOf u < l.idxOf w := by
    intro u w huw
    induction huw with
    | single hE => exact idxOf_lt_of_sublist h.nodup (h.edge _ _ hE)
    | tail _ hE ih => exact ih.trans (idxOf_lt_of_sublist h.nodup (h.edge _ _ hE))
  exact lt_irrefl _ (hlt hv)

/-! ## Removing the vertices without predecessors

The edges are lists of heads, so that an edge may come more than once. -/

section Removal

variable [DecidableEq V]

/-- The edges into `v` from the vertices that were not removed. -/
def edgesInto (heads : V → List V) (vertices : Finset V) (order : List V) (v : V) : ℤ :=
  ∑ u ∈ vertices \ order.toFinset, ((heads u).count v : ℤ)

/-- The state of a removal: the vertices removed, in order, those that wait in a queue, and how
many edges are counted into each vertex. The edges `pending` of the vertex removed last are still
counted. -/
structure Removal (heads : V → List V) (vertices : Finset V) (order queue : List V)
    (degree : V → ℤ) (pending : List V) : Prop where
  degree_eq : ∀ v ∈ vertices,
    degree v = edgesInto heads vertices order v + (pending.count v : ℤ)
  ready_iff : ∀ v ∈ vertices, v ∈ order ++ queue ↔ degree v = 0
  nodup : (order ++ queue).Nodup
  mem_vertices : ∀ v ∈ order ++ queue, v ∈ vertices
  edge : ∀ u ∈ vertices, ∀ v ∈ heads u, v ∈ order → [u, v].Sublist order

variable {heads : V → List V} {vertices : Finset V} {order queue pending : List V}
  {degree : V → ℤ} {v : V}

theorem edgesInto_nonneg (heads : V → List V) (vertices : Finset V) (order : List V) (v : V) :
    0 ≤ edgesInto heads vertices order v :=
  sum_nonneg fun _ _ => Int.natCast_nonneg _

/-- A vertex into which no edge is counted has had its predecessors removed. -/
theorem mem_of_edgesInto_eq_zero (h : edgesInto heads vertices order v = 0) {u : V}
    (hu : u ∈ vertices) (hv : v ∈ heads u) : u ∈ order := by
  by_contra hnot
  have hmem : u ∈ vertices \ order.toFinset := by
    rw [mem_sdiff, List.mem_toFinset]
    exact ⟨hu, hnot⟩
  have hzero := (sum_eq_zero_iff_of_nonneg fun _ _ => Int.natCast_nonneg _).mp h u hmem
  have hpos := List.count_pos_iff.mpr hv
  omega

/-- The edges out of a vertex are not counted any more when it is removed. -/
theorem edgesInto_concat (hv : v ∈ vertices) (hnew : v ∉ order) (w : V) :
    edgesInto heads vertices order w =
      edgesInto heads vertices (order ++ [v]) w + ((heads v).count w : ℤ) := by
  have hset : vertices \ order.toFinset = insert v (vertices \ (order ++ [v]).toFinset) := by
    ext u
    simp only [mem_sdiff, List.mem_toFinset, mem_insert, List.mem_append, List.mem_singleton]
    by_cases huv : u = v
    · simp [huv, hv, hnew]
    · simp [huv]
  have hnot : v ∉ vertices \ (order ++ [v]).toFinset := by simp
  rw [edgesInto, hset, sum_insert hnot, add_comm]
  rfl

/-- **The first vertex of the queue is removed.** -/
theorem Removal.pop (h : Removal heads vertices order (v :: queue) degree []) :
    Removal heads vertices (order ++ [v]) queue degree (heads v) := by
  have hv : v ∈ vertices := h.mem_vertices v (by simp)
  have hnew : v ∉ order := fun hmem =>
    (List.nodup_append.mp h.nodup).2.2 v hmem v List.mem_cons_self rfl
  have hsplit : order ++ [v] ++ queue = order ++ v :: queue := by simp
  refine ⟨fun w hw => ?_, fun w hw => ?_, hsplit ▸ h.nodup, fun w hw => ?_,
    fun u hu w hw hmem => ?_⟩
  · rw [h.degree_eq w hw, edgesInto_concat hv hnew]
    simp
  · rw [hsplit]
    exact h.ready_iff w hw
  · exact h.mem_vertices w (hsplit ▸ hw)
  · rcases List.mem_append.mp hmem with hmem | hmem
    · exact (h.edge u hu w hw hmem).trans (List.sublist_append_left _ _)
    · obtain rfl := List.mem_singleton.mp hmem
      have hzero : degree w = 0 := (h.ready_iff w hv).mp (by simp)
      have hinto : edgesInto heads vertices order w = 0 := by
        have heq := h.degree_eq w hv
        simpa [hzero] using heq.symm
      have hu' := mem_of_edgesInto_eq_zero hinto hu hw
      exact List.Sublist.append (List.singleton_sublist.mpr hu') (List.Sublist.refl [w])

/-- **One edge of the vertex removed last**: its head is ready when no other edge is counted. -/
theorem Removal.drop (h : Removal heads vertices order queue degree (v :: pending))
    (hv : v ∈ vertices) :
    Removal heads vertices order (if degree v - 1 = 0 then queue ++ [v] else queue)
      (Function.update degree v (degree v - 1)) pending := by
  have hdegree := h.degree_eq v hv
  have hpos : 0 < degree v := by
    have hinto := edgesInto_nonneg heads vertices order v
    rw [List.count_cons_self] at hdegree
    omega
  have hnot : v ∉ order ++ queue := fun hmem => by
    have hzero := (h.ready_iff v hv).mp hmem
    omega
  have hmem : ∀ w, w ∈ order ++ (if degree v - 1 = 0 then queue ++ [v] else queue) ↔
      w ∈ order ++ queue ∨ degree v - 1 = 0 ∧ w = v := by
    intro w
    split
    · next hzero => simp [or_assoc, hzero]
    · next hzero => simp [hzero]
  refine ⟨fun w hw => ?_, fun w hw => ?_, ?_, fun w hw => ?_, h.edge⟩
  · by_cases hwv : w = v
    · subst hwv
      rw [Function.update_self, hdegree, List.count_cons_self]
      push_cast
      omega
    · rw [Function.update_of_ne hwv, h.degree_eq w hw, List.count_cons_of_ne (Ne.symm hwv)]
  · rw [hmem]
    by_cases hwv : w = v
    · subst hwv
      rw [Function.update_self]
      simp [hnot]
    · rw [Function.update_of_ne hwv, ← h.ready_iff w hw]
      simp [hwv]
  · split
    · rw [← List.append_assoc]
      refine List.nodup_append.mpr ⟨h.nodup, List.nodup_singleton v, fun a ha b hb hab => ?_⟩
      rw [hab, List.mem_singleton.mp hb] at ha
      exact hnot ha
    · exact h.nodup
  · rcases (hmem w).mp hw with hw | ⟨-, rfl⟩
    · exact h.mem_vertices w hw
    · exact hv

/-- A removal starts with every edge counted and the vertices without any in the queue. -/
theorem Removal.start (heads : V → List V) (vertices : Finset V) {queue : List V}
    {degree : V → ℤ} (hdegree : ∀ v ∈ vertices, degree v = edgesInto heads vertices [] v)
    (hnodup : queue.Nodup) (hqueue : ∀ v, v ∈ queue ↔ v ∈ vertices ∧ degree v = 0) :
    Removal heads vertices [] queue degree [] where
  degree_eq v hv := by simpa using hdegree v hv
  ready_iff v hv := by
    rw [List.nil_append, hqueue]
    exact and_iff_right hv
  nodup := hnodup
  mem_vertices v hv := ((hqueue v).mp hv).1
  edge _ _ _ _ hmem := absurd hmem List.not_mem_nil

/-- The list and the queue have no more entries than there are vertices. -/
theorem Removal.length_le (h : Removal heads vertices order queue degree pending) :
    (order ++ queue).length ≤ vertices.card :=
  length_le_card_of_nodup h.nodup h.mem_vertices

/-- **When the queue is empty**, either every vertex was removed, and that is a topological order,
or there is a cycle among those left. -/
theorem Removal.isTopologicalOrder_or (h : Removal heads vertices order [] degree [])
    (hE : ∀ u v, E u v ↔ u ∈ vertices ∧ v ∈ heads u) (hheads : ∀ u v, E u v → v ∈ vertices) :
    (order.length = vertices.card ∧ IsTopologicalOrder E vertices order) ∨
      (order.length < vertices.card ∧ HasCycle E) := by
  have hnodup : order.Nodup := by simpa using h.nodup
  have hsub : order.toFinset ⊆ vertices := fun v hv =>
    h.mem_vertices v (by simpa using hv)
  have hcard : order.toFinset.card = order.length := List.toFinset_card_of_nodup hnodup
  rcases (card_le_card hsub).eq_or_lt with heq | hlt
  · have hall : order.toFinset = vertices := eq_of_subset_of_card_le hsub heq.ge
    refine .inl ⟨hcard ▸ heq, hnodup, fun v => ?_, fun u v huv => ?_⟩
    · rw [mem_coe, ← hall, List.mem_toFinset]
    · refine h.edge u ((hE u v).mp huv).1 v ((hE u v).mp huv).2 ?_
      rw [← List.mem_toFinset, hall]
      exact hheads u v huv
  · refine .inr ⟨hcard ▸ hlt, exists_cycle (vertices \ order.toFinset).finite_toSet ?_ ?_⟩
    · obtain ⟨v, hv, hnot⟩ := exists_of_ssubset (ssubset_of_subset_of_ne hsub fun heq => by
        rw [heq] at hlt
        exact lt_irrefl _ hlt)
      exact ⟨v, by simpa using And.intro hv (by simpa using hnot)⟩
    · intro v hv
      obtain ⟨hv, hnot⟩ := mem_sdiff.mp (mem_coe.mp hv)
      have hne : degree v ≠ 0 := fun hzero =>
        hnot (List.mem_toFinset.mpr (by simpa using (h.ready_iff v hv).mpr hzero))
      have hinto : edgesInto heads vertices order v ≠ 0 := by
        have heq := h.degree_eq v hv
        rw [List.count_nil] at heq
        omega
      obtain ⟨u, hu, hcount⟩ := exists_ne_zero_of_sum_ne_zero hinto
      have hmem : v ∈ heads u := List.count_pos_iff.mp (by omega)
      exact ⟨u, hu, (hE u v).mpr ⟨(mem_sdiff.mp hu).1, hmem⟩⟩

end Removal

/-! ## Colouring by depth-first search

The vertices are in three parts: those not come to, those of the path, and those left. -/

/-- What holds when a depth-first search stands at the end of a path: no cycle passes through the
vertices it has left, and no edge leads out of them. -/
structure Painting (E : V → V → Prop) (path : List V) (left : Set V) : Prop where
  closed : ∀ u ∈ left, ∀ v, E u v → v ∈ left
  acyclic : ∀ u ∈ left, ¬ TransGen E u u
  disjoint : ∀ u ∈ path, u ∉ left

namespace Painting

variable {path : List V} {left : Set V} {v : V}

theorem start (E : V → V → Prop) : Painting E [] ∅ :=
  ⟨fun _ h => absurd h (Set.notMem_empty _), fun _ h => absurd h (Set.notMem_empty _),
    fun _ h => absurd h List.not_mem_nil⟩

/-- The search goes on to a vertex it has not left. -/
theorem enter (h : Painting E path left) (hv : v ∉ left) : Painting E (v :: path) left := by
  refine ⟨h.closed, h.acyclic, fun u hu => ?_⟩
  rcases List.mem_cons.mp hu with rfl | hu
  · exact hv
  · exact h.disjoint u hu

theorem closed_transGen (h : Painting E path left) {u w : V} (hu : u ∈ left)
    (huw : TransGen E u w) : w ∈ left := by
  induction huw with
  | single hE => exact h.closed _ hu _ hE
  | tail _ hE ih => exact h.closed _ ih _ hE

/-- **The search leaves a vertex** all of whose edges lead to vertices it has left. -/
theorem finish (h : Painting E (v :: path) left) (hpath : v ∉ path)
    (hedges : ∀ w, E v w → w ∈ left) : Painting E path (insert v left) := by
  have hv : v ∉ left := h.disjoint v List.mem_cons_self
  refine ⟨fun u hu w huw => ?_, fun u hu hcycle => ?_, fun u hu hmem => ?_⟩
  · rcases hu with rfl | hu
    · exact .inr (hedges w huw)
    · exact .inr (h.closed u hu w huw)
  · rcases hu with rfl | hu
    · obtain ⟨w, huw, hwu⟩ := TransGen.head'_iff.mp hcycle
      rcases reflTransGen_iff_eq_or_transGen.mp hwu with rfl | hwu
      · exact hv (hedges _ huw)
      · exact hv (h.closed_transGen (hedges w huw) hwu)
    · exact h.acyclic u hu hcycle
  · rcases hmem with rfl | hmem
    · exact hpath hu
    · exact h.disjoint u (List.mem_cons_of_mem _ hu) hmem

/-- The search has left every vertex with an edge. -/
theorem not_hasCycle (h : Painting E path left) (hall : ∀ u v, E u v → u ∈ left) :
    ¬ HasCycle E := by
  rintro ⟨v, hv⟩
  obtain ⟨w, hvw, -⟩ := TransGen.head'_iff.mp hv
  exact h.acyclic v (hall v w hvw) hv

end Painting

end Foundation
