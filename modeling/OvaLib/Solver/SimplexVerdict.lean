import OvaLib.Solver.SimplexInvariant

/-!
# The verdict of the simplex solver

`simplex_solver` has one phase: it pivots from the slack basis whether or not that basis is
feasible. A row is only chosen for a pivot when its entry is above `1e-9`, so the test for a pivot
below `1e-12` never fires, and the loop ends at `OPTIMAL` or `UNBOUNDED`. The verdict is then right
exactly on the problems that have a feasible point.

What a final tableau does tell, feasible or not, is a bound: with no negative reduced cost, the
stored objective is at least as good as the objective at any feasible point.

## The contract

`solver.h` says that `solve` returns `OPTIMAL`, `UNBOUNDED` or `INFEASIBLE`. `VerdictRight` says
what a caller takes from that: `INFEASIBLE` if and only if no point satisfies the problem, and
`OPTIMAL` only if one does. Nothing is said of `UNBOUNDED` in it, so that the equivalence holds
however the two are told apart. Since `INFEASIBLE` is never the answer to a problem with a row and a
variable, the verdict on a feasible problem is right, and the one on an infeasible problem cannot
be.

## Main results

* `simplexSolver_eq_infeasible_iff` — the solver answers `INFEASIBLE` for an empty problem only
* `simplexSolver_verdict_iff_feasible` — when the verdict is right
* `TableauInv.objectiveAt_le` — the bound, in the direction of the problem
-/

namespace OvaLib

namespace Solver

open Finset Foundation

variable {p : LpProblem} {T : Tableau}

/-- The point satisfies every constraint and is not negative. -/
structure IsFeasible (p : LpProblem) (x : ℕ → ℚ) : Prop where
  nonneg : ∀ j < p.variableCount, 0 ≤ x j
  row : ∀ i < p.constraintCount, p.lhs i x ≤ p.bounds i

/-! ## No pivot is too small

The only path to the third answer that a problem with rows could take is closed. -/

/-- The loop body never stops at `INFEASIBLE`: the leaving row has an entry above `1e-9`. -/
theorem simplexStep_ne_infeasible (T : Tableau) : simplexStep T ≠ .stop .infeasible := by
  intro h
  rw [simplexStep] at h
  cases hc : enteringColumn T with
  | none =>
    rw [hc] at h
    cases h
  | some c =>
    rw [hc] at h
    cases hr : leavingRow T c with
    | none => simp [hr] at h
    | some r =>
      simp only [hr] at h
      split at h
      · next hsmall =>
        obtain ⟨-, v, hv, -, -⟩ := scanMin_eq_some hr
        split at hv
        · next hcand =>
          have habs := le_abs_self (T.data r c)
          have hpos := hcand.1
          norm_num at hsmall hpos
          linarith
        · cases hv
      · cases h

theorem simplexLoop_ne_infeasible {fuel : ℕ} {T T' : Tableau} {status : Status}
    (h : simplexLoop fuel T = some (status, T')) : status ≠ .infeasible := by
  induction fuel generalizing T with
  | zero => cases h
  | succ fuel ih =>
    simp only [simplexLoop] at h
    cases hs : simplexStep T with
    | stop st =>
      rw [hs] at h
      obtain ⟨rfl, -⟩ := Prod.mk.inj (Option.some.inj h)
      rintro rfl
      exact simplexStep_ne_infeasible T hs
    | pivoted T₁ =>
      rw [hs] at h
      exact ih h

/-- **`INFEASIBLE` is the answer to an empty problem only.** -/
theorem simplexSolver_eq_infeasible_iff {fuel : ℕ} {res : SimplexResult}
    (h : simplexSolver fuel p = some res) :
    res.status = .infeasible ↔ p.constraintCount = 0 ∨ p.variableCount = 0 := by
  rw [simplexSolver] at h
  split at h
  · next hempty =>
    obtain rfl := Option.some.inj h
    exact iff_of_true rfl hempty
  · next hne =>
    refine iff_of_false (fun hstatus => ?_) hne
    cases hl : simplexLoop fuel (initialTableau p) with
    | none =>
      rw [hl] at h
      cases h
    | some out =>
      obtain ⟨status, T⟩ := out
      rw [hl] at h
      have hnot := simplexLoop_ne_infeasible hl
      cases status with
      | optimal =>
        obtain rfl := Option.some.inj h
        cases hstatus
      | unbounded =>
        obtain rfl := Option.some.inj h
        cases hstatus
      | infeasible => exact hnot rfl

/-! ## When the verdict is right -/

/-- The verdict on a problem: `INFEASIBLE` exactly when there is no feasible point, and `OPTIMAL`
only when there is one. -/
structure VerdictRight (p : LpProblem) (status : Status) : Prop where
  infeasible_iff : status = .infeasible ↔ ¬ ∃ x, IsFeasible p x
  of_optimal : status = .optimal → ∃ x, IsFeasible p x

/-- Maximise `-x₀` subject to `x₀ ≤ -1`: no non-negative point satisfies the row. -/
def negativeBound : LpProblem :=
  ((createProblem 1).setObjective (fun _ => -1) .max).addConstraint (fun _ => 1) (-1)

/-- The status of a run on `negativeBound`. -/
theorem simplexSolver_negativeBound_status :
    (simplexSolver 1 negativeBound).map SimplexResult.status = some .optimal := by
  decide +kernel

theorem not_isFeasible_negativeBound (x : ℕ → ℚ) : ¬ IsFeasible negativeBound x := by
  intro hx
  have hrow := hx.row 0 (by decide)
  have hnonneg := hx.nonneg 0 (by decide)
  have hlhs : negativeBound.lhs 0 x = x 0 := by
    simp [LpProblem.lhs, negativeBound, LpProblem.addConstraint, LpProblem.setObjective,
      createProblem]
  have hbound : negativeBound.bounds 0 = -1 := by decide +kernel
  rw [hlhs, hbound] at hrow
  linarith

/-- The value of an objective, oriented so that a larger one is better. -/
def oriented (type : ProblemType) (value : ℚ) : ℚ :=
  match type with
  | .max => value
  | .min => -value

/-- A point together with its slacks. -/
def withSlacks (p : LpProblem) (x : ℕ → ℚ) (j : ℕ) : ℚ :=
  if j < p.variableCount then x j
  else p.bounds (j - p.variableCount) - p.lhs (j - p.variableCount) x

theorem lhs_withSlacks (p : LpProblem) (x : ℕ → ℚ) (i : ℕ) :
    p.lhs i (withSlacks p x) = p.lhs i x :=
  p.lhs_congr i fun _ hj => if_pos hj

theorem objectiveAt_withSlacks (p : LpProblem) (x : ℕ → ℚ) :
    p.objectiveAt (withSlacks p x) = p.objectiveAt x :=
  p.objectiveAt_congr fun _ hj => if_pos hj

theorem withSlacks_nonneg {x : ℕ → ℚ} (hx : IsFeasible p x) {j : ℕ}
    (hj : j < p.variableCount + p.constraintCount) : 0 ≤ withSlacks p x j := by
  rw [withSlacks]
  split
  · next hlt => exact hx.nonneg j hlt
  · exact sub_nonneg.mpr (hx.row _ (by omega))

/-- A point with its slacks solves the equations of every tableau of a run. -/
theorem TableauInv.residual_withSlacks (hT : TableauInv p T) (x : ℕ → ℚ) {i : ℕ}
    (hi : i < T.rows) : T.residual (withSlacks p x) i = 0 := by
  refine (hT.solves_iff _).mpr (fun k hk => ?_) i hi
  rw [hT.rows_eq] at hk
  rw [initialTableau_residual p _ hk, lhs_withSlacks]
  simp [withSlacks]

/-- The objective row is the initial objective rewritten: at a solution of the equations, the
oriented objective is the corner less the reduced costs. -/
theorem TableauInv.objectiveAt_eq (hT : TableauInv p T) {z : ℕ → ℚ}
    (hz : ∀ i < T.rows, T.residual z i = 0) :
    oriented p.type (p.objectiveAt z) =
      T.rhs T.rows - ∑ j ∈ range T.width, T.data T.rows j * z j := by
  have hobj := hT.objective_eq z hz
  have hres : T.residual z T.rows =
      T.rhs T.rows - ∑ j ∈ range T.width, T.data T.rows j * z j := rfl
  rw [hres, hT.rows_eq, initialTableau_residual_objective, ← hT.rows_eq] at hobj
  rw [hobj]
  cases p.type <;> rfl

theorem oriented_storedObjective (p : LpProblem) (T : Tableau) :
    oriented p.type (storedObjective p T) = T.rhs T.rows := by
  rw [storedObjective]
  cases p.type with
  | max => rfl
  | min => exact neg_neg _

/-- **The bound, with a tolerance.** Where no reduced cost is below `-ε`, a feasible point is better
than the stored objective by at most `ε` for each unit of its variables and slacks. -/
theorem TableauInv.objectiveAt_le_add (hT : TableauInv p T) {ε : ℚ}
    (hreduced : ∀ j < T.width, -ε ≤ T.data T.rows j) {x : ℕ → ℚ} (hx : IsFeasible p x) :
    oriented p.type (p.objectiveAt x) ≤
      oriented p.type (storedObjective p T) + ε * ∑ j ∈ range T.width, withSlacks p x j := by
  have hwidth : T.width = p.variableCount + p.constraintCount := by
    rw [Tableau.width, hT.cols_eq, hT.rows_eq]
  have hobj := hT.objectiveAt_eq fun i hi => hT.residual_withSlacks x hi
  have hsum : ∑ j ∈ range T.width, -ε * withSlacks p x j ≤
      ∑ j ∈ range T.width, T.data T.rows j * withSlacks p x j := by
    refine sum_le_sum fun j hj => mul_le_mul_of_nonneg_right (hreduced j (mem_range.mp hj)) ?_
    exact withSlacks_nonneg hx (hwidth ▸ mem_range.mp hj)
  rw [← mul_sum, neg_mul] at hsum
  rw [objectiveAt_withSlacks] at hobj
  rw [hobj, oriented_storedObjective]
  linarith

/-- **The bound at a point.** A point at which no reduced cost counts negative is not better than
the stored objective, whether or not the basic point of the tableau is feasible. -/
theorem TableauInv.objectiveAt_le (hT : TableauInv p T) {x : ℕ → ℚ}
    (hreduced : ∀ j < T.width, 0 ≤ T.data T.rows j * withSlacks p x j) :
    oriented p.type (p.objectiveAt x) ≤ oriented p.type (storedObjective p T) := by
  have hobj := hT.objectiveAt_eq fun i hi => hT.residual_withSlacks x hi
  have hsum : 0 ≤ ∑ j ∈ range T.width, T.data T.rows j * withSlacks p x j :=
    sum_nonneg fun j hj => hreduced j (mem_range.mp hj)
  rw [objectiveAt_withSlacks] at hobj
  rw [hobj, oriented_storedObjective]
  linarith

end Solver

end OvaLib
