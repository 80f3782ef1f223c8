import Mathlib.Data.List.Perm.Basic
import OvaLib.Foundation.FiniteMap
import OvaLib.Graph.Graph

/-!
# Edge lists

One adjacency list is a finite map from vertices to weights, listed by its edges: the linear search
of `find_edge` reads it, writing an edge rebinds a vertex and taking one out unbinds it.

The order of the edges is the order in which their heads were first added, and the map does not
remember it. What has to be kept is that no head is on the list twice, since the search stops at the
first hit and taking out an edge takes out one entry only.

## Scope

The list is an array list, which may refuse an insertion when there is no memory or when it holds
`INT_MAX` items. Either leaves the list as it was. Writing over an edge that is there needs no
memory and cannot fail.

## Main results

* `edgeWeight_eq` — the search finds the weight the map has
* `writeEdge_always` — with allocations succeeding, writing an edge rebinds its vertex
* `writeEdge_edges` — with any allocations, what was written is an edge list
* `eraseEdge_edges` — taking an edge out unbinds its vertex
-/

namespace OvaLib

namespace Graph

open Foundation (Lists)

namespace GraphImpl

/-- The adjacency list holds the edges `M` to the vertices that `M` binds. -/
abbrev Edges (adj : ArrayList GraphEdge) (M : ℕ → Option (WithTop ℚ)) : Prop :=
  Lists GraphEdge.toVertex GraphEdge.weight adj.items M

variable {adj : ArrayList GraphEdge} {M : ℕ → Option (WithTop ℚ)} {toVertex : ℕ}

/-! ## Searching -/

theorem findEdge_eq_some {i : ℕ} (h : findEdge adj toVertex = some i) :
    ∃ hi : i < adj.items.length, (adj.items[i]).toVertex = toVertex := by
  obtain ⟨hi, hto, -⟩ := List.findIdx?_eq_some_iff_getElem.mp h
  exact ⟨hi, of_decide_eq_true hto⟩

theorem findEdge_eq_none (h : findEdge adj toVertex = none) :
    ∀ e ∈ adj.items, e.toVertex ≠ toVertex := by
  intro e he
  exact of_decide_eq_false (List.findIdx?_eq_none_iff.mp h e he)

theorem get_of_lt {i : ℕ} (hi : i < adj.items.length) : adj.get i = some adj.items[i] := by
  rw [ArrayList.get, if_neg (by omega), Int.toNat_natCast, List.getElem?_eq_getElem hi]

/-- The search finds an edge exactly where there is one. -/
theorem isSome_findEdge (h : Edges adj M) :
    (findEdge adj toVertex).isSome = (M toVertex).isSome := by
  cases hfind : findEdge adj toVertex with
  | none =>
    rw [h.eq_none_iff.mpr (findEdge_eq_none hfind)]
    rfl
  | some i =>
    obtain ⟨hi, rfl⟩ := findEdge_eq_some hfind
    rw [h.of_mem (List.getElem_mem hi)]
    rfl

/-- The search finds the weight. -/
theorem edgeWeight_eq (h : Edges adj M) : edgeWeight adj toVertex = (M toVertex).getD ⊤ := by
  rw [edgeWeight]
  cases hfind : findEdge adj toVertex with
  | none =>
    rw [h.eq_none_iff.mpr (findEdge_eq_none hfind)]
    rfl
  | some i =>
    obtain ⟨hi, rfl⟩ := findEdge_eq_some hfind
    rw [h.of_mem (List.getElem_mem hi)]
    show ((adj.get i).elim ⊤ GraphEdge.weight) = _
    rw [get_of_lt hi]
    rfl

/-! ## Writing -/

theorem Edges.write {i : ℕ} (h : Edges adj M) (hi : i < adj.items.length) (weight : WithTop ℚ) :
    Edges (adj.write i ⟨adj.items[i].toVertex, weight⟩)
      (Function.update M adj.items[i].toVertex (some weight)) := by
  have hsplit : Lists GraphEdge.toVertex GraphEdge.weight
      (adj.items[i] :: adj.items.eraseIdx i) M := h.perm (List.getElem_cons_eraseIdx_perm hi)
  have hkey : (⟨adj.items[i].toVertex, weight⟩ : GraphEdge).toVertex = adj.items[i].toVertex := rfl
  exact (hsplit.replace hkey).perm
    (List.set_perm_cons_eraseIdx hi _)

theorem Edges.insert {adj' : ArrayList GraphEdge} {e : GraphEdge} (h : Edges adj M)
    (hitems : adj'.items = adj.items.insertIdx adj.items.length e) (he : M e.toVertex = none) :
    Edges adj' (Function.update M e.toVertex (some e.weight)) := by
  refine (Lists.insert h he).perm ?_
  rw [hitems, List.insertIdx_length_self]
  exact List.perm_append_singleton _ _

/-- With allocations succeeding, writing an edge rebinds its vertex. -/
theorem writeEdge_always (toVertex : ℕ) (h : Edges adj M) (hpos : 0 < adj.capacity)
    (hsize : adj.items.length < intMax) (weight : WithTop ℚ) :
    ∃ adj', writeEdge adj toVertex weight Allocator.always = (adj', Allocator.always) ∧
      Edges adj' (Function.update M toVertex (some weight)) ∧ 0 < adj'.capacity := by
  rw [writeEdge]
  cases hfind : findEdge adj toVertex with
  | some i =>
    obtain ⟨hi, rfl⟩ := findEdge_eq_some hfind
    exact ⟨_, rfl, Edges.write h hi weight, hpos⟩
  | none =>
    obtain ⟨adj', hins, hitems, hpos'⟩ := ArrayList.insert_always hpos hsize
      (⟨toVertex, weight⟩ : GraphEdge) (Int.natCast_nonneg adj.size) le_rfl
    refine ⟨adj', ?_, ?_, hpos'⟩
    · simp only [Allocator.alloc_always, Bool.not_true, Bool.false_eq_true, if_false]
      rw [hins]
    · exact Edges.insert h hitems (h.eq_none_iff.mpr (findEdge_eq_none hfind))

/-- An insertion at the end either does it or leaves the list alone. -/
theorem insert_items (adj : ArrayList GraphEdge) (e : GraphEdge) (a : Allocator) :
    (adj.insert e adj.size a).2.1.items = adj.items.insertIdx adj.items.length e ∨
      (adj.insert e adj.size a).2.1 = adj := by
  rw [ArrayList.insert]
  rw [if_neg (by simp [ArrayList.size])]
  cases adj.ensureCapacity a with
  | mk room a =>
    cases room with
    | none => exact Or.inr rfl
    | some room => exact Or.inl rfl

/-- With any allocations, what was written is an edge list. -/
theorem writeEdge_edges (toVertex : ℕ) (h : Edges adj M) (weight : WithTop ℚ) (a : Allocator) :
    ∃ M', Edges (writeEdge adj toVertex weight a).1 M' := by
  rw [writeEdge]
  cases hfind : findEdge adj toVertex with
  | some i =>
    obtain ⟨hi, rfl⟩ := findEdge_eq_some hfind
    exact ⟨_, Edges.write h hi weight⟩
  | none =>
    have hnone := h.eq_none_iff.mpr (findEdge_eq_none hfind)
    dsimp only
    split
    · exact ⟨M, h⟩
    · rcases insert_items adj ⟨toVertex, weight⟩ a.alloc.2 with hitems | heq
      · exact ⟨_, Edges.insert h hitems hnone⟩
      · exact ⟨M, by rw [heq]; exact h⟩

/-! ## Erasing -/

/-- Taking an edge out unbinds its vertex. -/
theorem eraseEdge_edges (toVertex : ℕ) (h : Edges adj M) :
    Edges (eraseEdge adj toVertex) (Function.update M toVertex none) := by
  rw [eraseEdge]
  cases hfind : findEdge adj toVertex with
  | none =>
    have hnone := h.eq_none_iff.mpr (findEdge_eq_none hfind)
    rw [Function.update_eq_self_iff.mpr hnone.symm]
    exact h
  | some i =>
    obtain ⟨hi, rfl⟩ := findEdge_eq_some hfind
    have hremove : (adj.remove i).2.items = adj.items.eraseIdx i := by
      rw [ArrayList.remove, if_neg (by omega)]
      rfl
    have hsplit : Lists GraphEdge.toVertex GraphEdge.weight
        (adj.items[i] :: adj.items.eraseIdx i) M := h.perm (List.getElem_cons_eraseIdx_perm hi)
    show Lists GraphEdge.toVertex GraphEdge.weight (adj.remove i).2.items _
    rw [hremove]
    exact hsplit.erase

theorem capacity_eraseEdge : (eraseEdge adj toVertex).capacity = adj.capacity := by
  simp only [eraseEdge, ArrayList.remove]
  split
  · rfl
  · split <;> rfl

end GraphImpl

end Graph

end OvaLib
