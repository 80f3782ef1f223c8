import Mathlib.Tactic.Linarith
import OvaLib.Graph.Graph

/-!
# Growth

What one growth does to the capacity and to the matrix, while the square of the capacity is an
`int`: the capacity stays a power of two, and the cell of a pair of vertices keeps its weight
although the rows get longer.

The new matrix is laid out afresh. Row `i` of the old one is copied to the place where row `i` of
the new one begins, so the copy of a row overwrites nothing that an earlier copy has put there. The
index of a cell is a pair in base `cap`; that base changes, and with it every index but those of
row 0.

## Scope

The bound on the capacity is 32768, whose square is `2 ^ 30`. At the next power of two the square is
`2 ^ 32`, which is zero as an `int`: the loop that is to fill a new matrix with `GRAPH_NO_EDGE` then
makes no turn, and the lemmas here fail. The adjacency lists have no such bound.

## Main results

* `doubleUntil_pow` — the doubling loop ends at the power of two it needs
* `copyRows_apply` — the re-laid-out matrix, cell by cell
-/

namespace OvaLib

namespace Graph

namespace GraphImpl

/-! ## The capacity -/

theorem doubleUntil_eq (fuel : ℕ) (newCap required : ℤ) :
    doubleUntil fuel newCap required = OvaLib.doubleUntil fuel newCap required := by
  induction fuel generalizing newCap with
  | zero => rfl
  | succ fuel ih => rw [doubleUntil, OvaLib.doubleUntil, ih]

/-- The doubling loop ends at a power of two. -/
theorem doubleUntil_pow {b : ℕ} (hb : b ≤ 30) {required : ℤ} (hreq : required ≤ 2 ^ b)
    {fuel k : ℕ} (hk : k ≤ b) (hfuel : b - k < fuel) :
    ∃ j, k ≤ j ∧ j ≤ b ∧ required ≤ 2 ^ j ∧ doubleUntil fuel (2 ^ k) required = some (2 ^ j) := by
  rw [doubleUntil_eq]
  exact OvaLib.doubleUntil_pow hb hreq hk hfuel

/-! ## The matrix -/

variable {cap u v : ℕ}

theorem index_lt (hu : u < cap) (hv : v < cap) : u * cap + v < cap * cap := by
  have hle : (u + 1) * cap ≤ cap * cap := Nat.mul_le_mul_right cap hu
  rw [Nat.add_mul, Nat.one_mul] at hle
  omega

theorem mul_self_le (hcap : cap ≤ 32768) : cap * cap ≤ 1073741824 :=
  Nat.mul_le_mul hcap hcap

/-- A cell of a different row or column has a different index. -/
theorem index_inj {u' v' : ℕ} (hv : v < cap) (hv' : v' < cap) (h : u * cap + v = u' * cap + v') :
    u = u' ∧ v = v' := by
  have hpos : 0 < cap := by omega
  have hu : u = u' := by
    have hdiv := congrArg (· / cap) h
    simpa [Nat.add_comm _ v, Nat.add_comm _ v', Nat.add_mul_div_right _ _ hpos,
      Nat.div_eq_of_lt hv, Nat.div_eq_of_lt hv'] using hdiv
  subst hu
  exact ⟨rfl, by omega⟩

theorem cell_eq {g : GraphImpl} (hcap : g.vertexCapacity ≤ 32768) (hu : u < g.vertexCapacity)
    (hv : v < g.vertexCapacity) : g.cell u v = ((u * g.vertexCapacity + v : ℕ) : ℤ) := by
  have hlt := index_lt hu hv
  have hle := mul_self_le hcap
  have hrow : int32 ((u : ℤ) * g.vertexCapacity) = ((u * g.vertexCapacity : ℕ) : ℤ) := by
    rw [← Nat.cast_mul]
    exact int32_eq (by omega) (by omega)
  rw [cell, hrow, ← Nat.cast_add]
  exact int32_eq (by omega) (by omega)

variable (junk : ℤ → WithTop ℚ)

theorem newAdjMatrix_apply (hcap : cap ≤ 32768) (hu : u < cap) (hv : v < cap) :
    newAdjMatrix junk cap ((u * cap + v : ℕ) : ℤ) = ⊤ := by
  have hlt := index_lt hu hv
  have hle := mul_self_le hcap
  have hsquare : int32 ((cap : ℤ) * cap) = ((cap * cap : ℕ) : ℤ) := by
    rw [← Nat.cast_mul]
    exact int32_eq (by omega) (by omega)
  rw [newAdjMatrix, hsquare]
  exact if_pos ⟨by omega, by omega⟩

/-- One row copied: its first cells come from the old matrix, the others stay. -/
theorem copyRow_apply {old new : ℤ → WithTop ℚ} {oldCap i : ℕ} (hold : oldCap ≤ cap)
    (hcap : cap ≤ 32768) (hi : i < oldCap) (hv : v < cap) :
    copyRow old oldCap cap new i ((u * cap + v : ℕ) : ℤ) =
      if u = i ∧ v < oldCap then old ((i * oldCap + v : ℕ) : ℤ)
      else new ((u * cap + v : ℕ) : ℤ) := by
  have hile : i * cap ≤ cap * cap := Nat.mul_le_mul_right cap (by omega)
  have hle := mul_self_le hcap
  have hile' : i * oldCap ≤ i * cap := Nat.mul_le_mul_left i hold
  have hrow : int32 ((i : ℤ) * cap) = ((i * cap : ℕ) : ℤ) := by
    rw [← Nat.cast_mul]
    exact int32_eq (by omega) (by omega)
  have hrow' : int32 ((i : ℤ) * oldCap) = ((i * oldCap : ℕ) : ℤ) := by
    rw [← Nat.cast_mul]
    exact int32_eq (by omega) (by omega)
  rw [copyRow]
  simp only [hrow, hrow']
  rcases lt_trichotomy u i with hui | rfl | hui
  · have hlt : (u + 1) * cap ≤ i * cap := Nat.mul_le_mul_right cap hui
    rw [Nat.add_mul, Nat.one_mul] at hlt
    rw [if_neg (by omega), if_neg (by omega)]
  · have hoff : ((u * cap + v : ℕ) : ℤ) - ((u * cap : ℕ) : ℤ) = (v : ℤ) := by omega
    rw [hoff]
    by_cases hvold : v < oldCap
    · rw [if_pos ⟨by omega, by omega⟩, if_pos ⟨rfl, hvold⟩, Nat.cast_add]
    · rw [if_neg (by omega), if_neg (by omega)]
  · have hlt : (i + 1) * cap ≤ u * cap := Nat.mul_le_mul_right cap hui
    rw [Nat.add_mul, Nat.one_mul] at hlt
    rw [if_neg (by omega), if_neg (by omega)]

/-- The first `n` rows copied. -/
theorem copyRows_apply {old : ℤ → WithTop ℚ} {oldCap : ℕ} (hold : oldCap ≤ cap)
    (hcap : cap ≤ 32768) (hu : u < cap) (hv : v < cap) :
    ∀ {n : ℕ}, n ≤ oldCap →
      (List.range n).foldl (copyRow old oldCap cap) (newAdjMatrix junk cap)
        ((u * cap + v : ℕ) : ℤ) =
      if u < n ∧ v < oldCap then old ((u * oldCap + v : ℕ) : ℤ) else ⊤ := by
  intro n
  induction n with
  | zero =>
    intro _
    rw [List.range_zero, List.foldl_nil, newAdjMatrix_apply junk hcap hu hv]
    simp
  | succ n ih =>
    intro hn
    rw [List.range_succ, List.foldl_append, List.foldl_cons, List.foldl_nil,
      copyRow_apply hold hcap (by omega) hv, ih (by omega)]
    by_cases hun : u = n
    · subst hun
      by_cases hvold : v < oldCap <;> simp [hvold]
    · by_cases hlt : u < n
      · rw [if_neg (fun h => hun h.1)]
        simp [hlt, Nat.lt_succ_of_lt hlt]
      · rw [if_neg (fun h => hun h.1), if_neg (fun h => hlt h.1), if_neg (by omega)]

end GraphImpl

end Graph

end OvaLib
