import OvaLib.Solver.SimplexVerdict

/-!
# The bound of the simplex solver

What the pivot loop knows about all feasible points. Each of its tableaus says that the constraints
hold with slacks, in other equations, and its objective row is the objective in terms of them. The
loop stops when no reduced cost is below `-1e-9`, so the stored objective is a bound up to that
tolerance, whichever signs the bounds of the problem have and whether or not the point of the final
tableau is feasible.

The argument is the one of weak duality, read off from the tableau. At a feasible point with its
slacks all variables are non-negative, and the objective there is the corner minus the reduced costs
weighted with the variables. A reduced cost that is not negative can only lower it, and one between
`-1e-9` and zero raises it by no more than `1e-9` for each unit of its variable. `tolerance` is that
sum at a point; it is not bounded over all points, and so the statement is about one point at a
time.

This is what the search of the integer solvers prunes by, and it needs nothing of the answer but the
status.

## Main results

* `Pivots.inv` — the tableau after any number of pivots
* `simplexSolver_bound` — the equations, the objective row and the bound
-/

namespace OvaLib

namespace Solver

open Finset Foundation

variable {p : LpProblem} {T : Tableau}

/-- Zero or more pivots. -/
def Pivots : Tableau → Tableau → Prop :=
  Relation.ReflTransGen fun T T' => simplexStep T = .pivoted T'

/-- Any number of pivots keeps the invariant. -/
theorem Pivots.inv {T' : Tableau} (h : Pivots T T') (hT : TableauInv p T) : TableauInv p T' := by
  induction h with
  | refl => exact hT
  | tail _ hstep ih => exact ih.step hstep

/-- The equations of every tableau say that the constraints hold with the slacks. -/
theorem TableauInv.solves_iff_lhs (hT : TableauInv p T) (z : ℕ → ℚ) :
    (∀ i < T.rows, T.residual z i = 0) ↔
      ∀ i < p.constraintCount, p.lhs i z + z (p.variableCount + i) = p.bounds i := by
  rw [hT.solves_iff z, hT.rows_eq]
  refine forall₂_congr fun i hi => ?_
  rw [initialTableau_residual p z hi, sub_eq_zero, eq_comm]

/-- A loop that ends stops at the tableau that it hands back. -/
theorem simplexLoop_stop {fuel : ℕ} {status : Status} {T' : Tableau}
    (h : simplexLoop fuel T = some (status, T')) : simplexStep T' = .stop status := by
  induction fuel generalizing T with
  | zero => exact absurd h (by simp [simplexLoop])
  | succ fuel ih =>
    rw [simplexLoop] at h
    cases hs : simplexStep T with
    | stop st =>
      rw [hs] at h
      obtain ⟨rfl, rfl⟩ := Prod.mk.inj (Option.some.inj h)
      exact hs
    | pivoted T₁ =>
      rw [hs] at h
      exact ih h

/-- An answer `OPTIMAL` leaves no reduced cost below the tolerance. -/
theorem simplexSolver_reduced {fuel : ℕ} {x : ℕ → ℚ} {obj : ℚ}
    (h : simplexSolver fuel p = some (.optimal x obj T)) :
    ∀ j < T.width, -(1 / 1000000000) ≤ T.data T.rows j := by
  rw [simplexSolver] at h
  split at h
  · exact absurd h (by simp)
  · cases hl : simplexLoop fuel (initialTableau p) with
    | none => exact absurd h (by simp [hl])
    | some res =>
      obtain ⟨status, T'⟩ := res
      rw [hl] at h
      cases status with
      | optimal =>
        obtain ⟨-, -, rfl⟩ := SimplexResult.optimal.inj (Option.some.inj h)
        intro j hj
        have hj' := simplexStep_eq_optimal (simplexLoop_stop hl) j hj
        rwa [neg_div] at hj'
      | unbounded => exact absurd h (by simp)
      | infeasible => exact absurd h (by simp)

/-- The tolerance at a feasible point: `1e-9` for each unit of its variables and slacks. -/
def tolerance (p : LpProblem) (y : ℕ → ℚ) : ℚ :=
  1 / 1000000000 * (∑ j ∈ range p.variableCount, y j +
    ∑ i ∈ range p.constraintCount, (p.bounds i - p.lhs i y))

theorem sum_withSlacks (p : LpProblem) (y : ℕ → ℚ) :
    ∑ j ∈ range (p.variableCount + p.constraintCount), withSlacks p y j =
      ∑ j ∈ range p.variableCount, y j +
        ∑ i ∈ range p.constraintCount, (p.bounds i - p.lhs i y) := by
  rw [sum_range_add]
  congr 1
  · exact sum_congr rfl fun j hj => if_pos (mem_range.mp hj)
  · refine sum_congr rfl fun i _ => ?_
    rw [withSlacks, if_neg (by omega), Nat.add_sub_cancel_left]

/-- **The bound of the simplex solver.** After any number of pivots the equations of the tableau
have the solutions of the constraints with slacks, and its objective row is the objective rewritten
at them. At `OPTIMAL` no feasible point is better than the stored objective by more than the
tolerance, in the direction of the problem. -/
theorem simplexSolver_bound (p : LpProblem) :
    (∀ T, Pivots (initialTableau p) T → ∀ z,
      ((∀ i < T.rows, T.residual z i = 0) ↔
        ∀ i < p.constraintCount, p.lhs i z + z (p.variableCount + i) = p.bounds i) ∧
      ((∀ i < T.rows, T.residual z i = 0) → oriented p.type (p.objectiveAt z) =
        T.rhs T.rows - ∑ j ∈ range T.width, T.data T.rows j * z j)) ∧
    ∀ fuel x obj T, simplexSolver fuel p = some (.optimal x obj T) → ∀ y, IsFeasible p y →
      match p.type with
      | .max => p.objectiveAt y ≤ obj + tolerance p y
      | .min => obj - tolerance p y ≤ p.objectiveAt y := by
  refine ⟨fun T hT z => ?_, fun fuel x obj T hopt y hy => ?_⟩
  · have hinv := hT.inv (initialTableau_inv p)
    exact ⟨hinv.solves_iff_lhs z, fun hz => hinv.objectiveAt_eq hz⟩
  · obtain ⟨hinv, -, rfl⟩ := simplexSolver_eq_optimal hopt
    have hle := hinv.objectiveAt_le_add (simplexSolver_reduced hopt) hy
    rw [Tableau.width, hinv.cols_eq, hinv.rows_eq, sum_withSlacks] at hle
    cases htype : p.type with
    | max =>
      rw [htype] at hle
      exact hle
    | min =>
      rw [htype, oriented, oriented] at hle
      rw [tolerance]
      linarith

/-- The problem with two equal columns: the point `(1, 0)` reaches the bound. -/
theorem simplexSolver_bound_duplicateColumns :
    ∃ x obj T, simplexSolver 2 duplicateColumns = some (.optimal x obj T) ∧
      IsFeasible duplicateColumns (Pi.single 0 1) ∧
      duplicateColumns.objectiveAt (Pi.single 0 1) ≤
        obj + tolerance duplicateColumns (Pi.single 0 1) := by
  have hrun : (simplexSolver 2 duplicateColumns).bind (SimplexResult.readings 2) =
      some ([1, 1], 1) := by decide +kernel
  obtain ⟨x, obj, T, h, -⟩ := exists_optimal_of_readings hrun
  have hfeasible : IsFeasible duplicateColumns (Pi.single 0 1) := by
    refine ⟨?_, ?_⟩ <;> decide +kernel
  exact ⟨x, obj, T, h, hfeasible,
    (simplexSolver_bound duplicateColumns).2 2 x obj T h (Pi.single 0 1) hfeasible⟩

end Solver

end OvaLib
