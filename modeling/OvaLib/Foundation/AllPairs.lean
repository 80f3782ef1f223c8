import OvaLib.Foundation.Walk

/-!
# Distances between all pairs of vertices

A table holds weights of walks, and it is improved by allowing the walks to pass through one more
vertex at a time. What a vertex contributes stays: once a pair cannot be improved by going through a
vertex, no later vertex makes that possible again. When this holds for every vertex that has edges,
no edge improves a row, so the rows are the distances.

The invariant has no intermediate vertices of walks in it. It says of each vertex that was taken
that the triangle inequality through it holds for all pairs. Taking a vertex makes that true of it
and keeps it of the others, and this is a short calculation with four entries of the table, in which
the diagonal is not negative. In place of walks with restricted interiors there are then only
entries and edges, and a table that satisfies the inequality through every vertex is one that
relaxing an edge does not change.

The pairs of a turn may be improved in any order and in place, since the row and the column of the
vertex that is taken do not change in its turn.

## Main results

* `AllPairs.through` — one more vertex
* `AllPairs.isDistance` — the rows, when every vertex was taken
-/

namespace Foundation

variable {V R : Type*} [AddCommGroup R] [LinearOrder R]

/-- Going through `m` wherever that is better. -/
def through (m : V) (D : V → V → WithTop R) (i j : V) : WithTop R := min (D i j) (D i m + D m j)

/-- A table of weights of walks in which going through a vertex of `taken` improves nothing. -/
structure AllPairs (w : V → V → WithTop R) (vertices : Set V) (taken : Set V)
    (D : V → V → WithTop R) : Prop where
  walk : ∀ i j (x : R), D i j = x → ∃ n, Walk w i n j x
  diag_le : ∀ i ∈ vertices, D i i ≤ 0
  edge_le : ∀ i j, D i j ≤ w i j
  mem : ∀ i j, D i j ≠ ⊤ → i ∈ vertices ∧ j ∈ vertices
  /-- Going through a vertex that was taken improves nothing. -/
  triangle : ∀ k ∈ taken, ∀ i j, D i j ≤ D i k + D k j

variable {w : V → V → WithTop R} {vertices taken : Set V} {D : V → V → WithTop R} {m s : V}

/-- The table of the edges, with nothing to pay for staying. -/
def edgeTable [DecidableEq V] (w : V → V → WithTop R) (vertices : Set V)
    [DecidablePred (· ∈ vertices)] (i j : V) : WithTop R :=
  min (if i = j ∧ i ∈ vertices then 0 else ⊤) (w i j)

/-- The table of the edges goes through no vertex. -/
theorem allPairs_edgeTable [DecidableEq V] [DecidablePred (· ∈ vertices)]
    (hw : ∀ i j, w i j ≠ ⊤ → i ∈ vertices ∧ j ∈ vertices) :
    AllPairs w vertices ∅ (edgeTable w vertices) where
  walk i j x hx := by
    rw [edgeTable] at hx
    rcases min_choice (if i = j ∧ i ∈ vertices then (0 : WithTop R) else ⊤) (w i j) with hmin | hmin
    · rw [hmin] at hx
      split at hx
      · next hij =>
        obtain ⟨rfl, -⟩ := hij
        obtain rfl : (0 : R) = x := WithTop.coe_injective hx
        exact ⟨0, .nil⟩
      · exact absurd hx WithTop.top_ne_coe
    · rw [hmin] at hx
      have hwalk := (Walk.nil (w := w) (s := i)).snoc hx
      rw [zero_add x] at hwalk
      exact ⟨1, hwalk⟩
  diag_le i hi := (min_le_left _ _).trans (if_pos ⟨rfl, hi⟩).le
  edge_le i j := min_le_right _ _
  mem i j hne := by
    rw [edgeTable] at hne
    by_cases hij : i = j ∧ i ∈ vertices
    · exact ⟨hij.2, hij.1 ▸ hij.2⟩
    · rw [if_neg hij, min_eq_right le_top] at hne
      exact hw i j hne
  triangle k hk := absurd hk (Set.notMem_empty k)

/-- Without negative cycles there is nothing to pay or to gain for staying. -/
theorem AllPairs.diag_eq (h : AllPairs w vertices taken D) (hcycle : ∀ s, ¬ NegativeCycle w s)
    (hm : m ∈ vertices) : D m m = 0 := by
  refine le_antisymm (h.diag_le m hm) ?_
  cases hx : D m m with
  | top => exact le_top
  | coe x =>
    obtain ⟨n, hwalk⟩ := h.walk m m x hx
    by_contra hlt
    rw [not_le] at hlt
    exact hcycle m ⟨m, .refl w m, n, x, hwalk, by exact_mod_cast hlt⟩

variable [IsOrderedAddMonoid R]

/-- **One more vertex.** The row and the column of the vertex itself stay as they are, which is why
the pairs may be improved in any order. -/
theorem AllPairs.through (h : AllPairs w vertices taken D) (hcycle : ∀ s, ¬ NegativeCycle w s)
    (hm : m ∈ vertices) : AllPairs w vertices (insert m taken) (through m D) where
  walk i j x hx := by
    rcases min_choice (D i j) (D i m + D m j) with hmin | hmin
    · exact h.walk i j x (hmin ▸ hx)
    · have hsum : D i m + D m j = x := hmin ▸ hx
      obtain ⟨y, z, hy, hz, rfl⟩ := WithTop.add_eq_coe.mp hsum
      obtain ⟨n, hwalk⟩ := h.walk i m y hy.symm
      obtain ⟨n', hwalk'⟩ := h.walk m j z hz.symm
      exact ⟨n + n', hwalk.append hwalk'⟩
  diag_le i hi := (min_le_left _ _).trans (h.diag_le i hi)
  edge_le i j := (min_le_left _ _).trans (h.edge_le i j)
  mem i j hne := by
    by_contra hnot
    refine hne ?_
    have htop : ∀ i j, ¬ (i ∈ vertices ∧ j ∈ vertices) → D i j = ⊤ := fun i j hij =>
      not_not.mp (mt (h.mem i j) hij)
    rw [Foundation.through, htop i j hnot, min_eq_right le_top]
    rcases not_and_or.mp hnot with hi | hj
    · rw [htop i m fun him => hi him.1, WithTop.top_add]
    · rw [htop m j fun hmj => hj hmj.2, WithTop.add_top]
  triangle k hk i j := by
    have hzero := h.diag_eq hcycle hm
    have hdirect : Foundation.through m D i j ≤ D i m + D m j := min_le_right _ _
    rcases hk with rfl | hk
    · -- the row and the column of `k` have not changed
      rw [Foundation.through, Foundation.through, Foundation.through, hzero, add_zero, zero_add,
        min_self, min_self]
      exact min_le_right _ _
    · have htri := h.triangle k hk
      have hik : D i k = Foundation.through m D i k ∨
          D i m + D m k = Foundation.through m D i k :=
        (min_choice _ _).imp Eq.symm Eq.symm
      have hkj : D k j = Foundation.through m D k j ∨
          D k m + D m j = Foundation.through m D k j :=
        (min_choice _ _).imp Eq.symm Eq.symm
      rcases hik with hik | hik <;> rcases hkj with hkj | hkj <;> rw [← hik, ← hkj]
      · exact (min_le_left _ _).trans (htri i j)
      · calc Foundation.through m D i j ≤ D i m + D m j := hdirect
          _ ≤ D i k + D k m + D m j := by gcongr; exact htri i m
          _ = D i k + (D k m + D m j) := add_assoc _ _ _
      · calc Foundation.through m D i j ≤ D i m + D m j := hdirect
          _ ≤ D i m + (D m k + D k j) := by gcongr; exact htri m j
          _ = D i m + D m k + D k j := (add_assoc _ _ _).symm
      · -- twice through `m` with `k` between: the round trip costs something
        calc Foundation.through m D i j ≤ D i m + D m j := hdirect
          _ = D i m + D m m + D m j := by rw [hzero, add_zero]
          _ ≤ D i m + (D m k + D k m) + D m j := by gcongr; exact htri m m
          _ = D i m + D m k + (D k m + D m j) := by simp only [add_assoc]

/-- **The rows are the distances** once every vertex with edges was taken. -/
theorem AllPairs.isDistance (h : AllPairs w vertices taken D)
    (hall : ∀ u v, w u v ≠ ⊤ → u ∈ taken) (hs : s ∈ vertices) : IsDistance w s (D s) := by
  refine isDistance_of_relaxed (h.diag_le s hs) (fun v x => h.walk s v x) fun u v c hc => ?_
  calc D s v ≤ D s u + D u v := h.triangle u (hall u v (by rw [hc]; exact WithTop.coe_ne_top)) s v
    _ ≤ D s u + w u v := by gcongr; exact h.edge_le u v
    _ = D s u + c := by rw [hc]

end Foundation
