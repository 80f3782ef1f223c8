import Mathlib.Algebra.BigOperators.Group.Finset.Basic
import Mathlib.Algebra.Order.Floor.Ring
import Mathlib.Data.Rat.Floor

/-!
# Linear problems

The data a solver works on: `lp_problem_impl`, with exact rationals in place of `double`.

A problem is read as *optimise `objective · x` over `x ≥ 0` subject to `constraints x ≤ bounds`*.
The dense arrays of the source are total functions on `ℕ`; only the entries below `variableCount`
and `constraintCount` are ever read. Capacities, the `solution` buffer and the function table are
storage of the C object and have no counterpart here: a solver's answer is a returned value.
`ProblemStorage` has them.

## Exact arithmetic

The solvers compare with tolerances, `1e-9` in the simplex solver and `1e-6` in the integer solvers,
and they do so here. What is left out is that every operation on `double` rounds. So a statement
that an answer is right says that the algorithm is; one that an answer is wrong has an example in
which all numbers are small integers or halves, or names the tolerance it is about.

The integrality of the variables is nowhere in the data. It is the type of the solver that says
whether they are integers, and then all of them are.

## Main definitions

* `LpProblem`, with `createProblem`, `setObjective`, `setBounds` and `addConstraint`
* `isInteger`, `checkFeasibility` — the two tolerance tests every integer solver shares
* `clone_with_lower_bound` is `cloneWithLowerBound`, the substitution `x_j = x_j' + lb`
-/

namespace OvaLib

namespace Solver

open Finset

/-- `ProblemType`: the optimisation direction. -/
inductive ProblemType
  | max
  | min
  deriving DecidableEq, Repr

/-- The three return codes of a solver. -/
inductive Status
  | optimal
  | unbounded
  | infeasible
  deriving DecidableEq, Repr

/-- `DBL_MAX`, the largest finite `double`. -/
def dblMax : ℚ := 2 ^ 1024 - 2 ^ 971

/-- `BB_INT_TOL`, `BC_INT_TOL`, `LR_INT_TOL` and the constant inside `is_integer`: all `1e-6`. -/
def intTol : ℚ := 1 / 1000000

/-- `lp_problem_impl`. -/
structure LpProblem where
  /-- Coefficient of variable `j` in row `i`. -/
  constraints : ℕ → ℕ → ℚ
  /-- Objective coefficients. -/
  objective : ℕ → ℚ
  /-- Right-hand sides, one for each populated row. -/
  bounds : ℕ → ℚ
  /-- Optimisation direction. -/
  type : ProblemType
  /-- Number of variables. -/
  variableCount : ℕ
  /-- Number of populated rows. -/
  constraintCount : ℕ

/-- `create_problem`: no rows yet, a zero objective to maximise. -/
def createProblem (numVariables : ℕ) : LpProblem where
  constraints := fun _ _ => 0
  objective := fun _ => 0
  bounds := fun _ => 0
  type := .max
  variableCount := numVariables
  constraintCount := 0

namespace LpProblem

/-- `solver_set_objective`. -/
def setObjective (p : LpProblem) (coefficients : ℕ → ℚ) (type : ProblemType) : LpProblem :=
  { p with objective := coefficients, type := type }

/-- `solver_set_bounds`. -/
def setBounds (p : LpProblem) (bounds : ℕ → ℚ) : LpProblem :=
  { p with bounds := fun i => if i < p.constraintCount then bounds i else p.bounds i }

/-- `solver_add_constraint`: write the next row. -/
def addConstraint (p : LpProblem) (coefficients : ℕ → ℚ) (bound : ℚ) : LpProblem :=
  { p with
    constraints := Function.update p.constraints p.constraintCount coefficients
    bounds := Function.update p.bounds p.constraintCount bound
    constraintCount := p.constraintCount + 1 }

/-- The left-hand side of row `i` at `x`. -/
def lhs (p : LpProblem) (i : ℕ) (x : ℕ → ℚ) : ℚ :=
  ∑ j ∈ range p.variableCount, p.constraints i j * x j

/-- The objective at `x`, which is `lr_compute_objective`. -/
def objectiveAt (p : LpProblem) (x : ℕ → ℚ) : ℚ :=
  ∑ j ∈ range p.variableCount, p.objective j * x j

/-- Row sums are additive in the point. -/
theorem lhs_add (p : LpProblem) (i : ℕ) (x y : ℕ → ℚ) :
    p.lhs i (fun j => x j + y j) = p.lhs i x + p.lhs i y := by
  simp only [lhs, mul_add, sum_add_distrib]

/-- The objective is additive in the point. -/
theorem objectiveAt_add (p : LpProblem) (x y : ℕ → ℚ) :
    p.objectiveAt (fun j => x j + y j) = p.objectiveAt x + p.objectiveAt y := by
  simp only [objectiveAt, mul_add, sum_add_distrib]

/-- Row sums read only the variables of the problem. -/
theorem lhs_congr (p : LpProblem) (i : ℕ) {x y : ℕ → ℚ} (h : ∀ j < p.variableCount, x j = y j) :
    p.lhs i x = p.lhs i y :=
  sum_congr rfl fun j hj => by rw [h j (mem_range.mp hj)]

/-- The objective reads only the variables of the problem. -/
theorem objectiveAt_congr (p : LpProblem) {x y : ℕ → ℚ} (h : ∀ j < p.variableCount, x j = y j) :
    p.objectiveAt x = p.objectiveAt y :=
  sum_congr rfl fun j hj => by rw [h j (mem_range.mp hj)]

/-- `clone_problem` (and `bc_clone_problem`): a deep copy holds the same data. -/
def cloneProblem (p : LpProblem) : LpProblem := p

/-- `clone_with_lower_bound` (and `bc_clone_with_lower_bound`): substitute
`x_varIdx = x_varIdx' + lb` in every row. The objective coefficients stay, and the second
component is the constant the substitution adds to the objective. -/
def cloneWithLowerBound (p : LpProblem) (varIdx : ℕ) (lb : ℚ) : LpProblem × ℚ :=
  ({ p with bounds := fun r => p.bounds r - p.constraints r varIdx * lb },
    p.objective varIdx * lb)

/-- The row `x_varIdx` that the floor child adds. -/
def unitRow (varIdx : ℕ) : ℕ → ℚ := fun j => if j = varIdx then 1 else 0

end LpProblem

/-- C's `round`: to the nearest integer, halves away from zero. -/
def cRound (x : ℚ) : ℤ := if 0 ≤ x then ⌊x + 1 / 2⌋ else ⌈x - 1 / 2⌉

/-- `is_integer`: within `1e-6` of the rounded value. -/
def isInteger (value : ℚ) : Bool := |value - cRound value| < intTol

/-- `solution_is_integer` (and `bc_solution_is_integer`). -/
def solutionIsInteger (solution : ℕ → ℚ) (numVars : ℕ) : Bool :=
  (List.range numVars).all fun i => isInteger (solution i)

/-- `check_original_feasibility`, `bc_check_original_feasibility` and `lr_check_feasibility`:
every row holds up to `1e-6`. -/
def checkFeasibility (p : LpProblem) (solution : ℕ → ℚ) : Bool :=
  (List.range p.constraintCount).all fun i => p.lhs i solution ≤ p.bounds i + intTol

theorem isInteger_iff {v : ℚ} : isInteger v = true ↔ |v - cRound v| < intTol := by
  simp [isInteger]

/-- What the integrality test of a vector says. -/
theorem solutionIsInteger_iff {x : ℕ → ℚ} {n : ℕ} :
    solutionIsInteger x n = true ↔ ∀ j < n, |x j - cRound (x j)| < intTol := by
  simp [solutionIsInteger, isInteger_iff]

/-- What the feasibility test of a vector says. -/
theorem checkFeasibility_iff {p : LpProblem} {x : ℕ → ℚ} :
    checkFeasibility p x = true ↔ ∀ i < p.constraintCount, p.lhs i x ≤ p.bounds i + intTol := by
  simp [checkFeasibility]

end Solver

end OvaLib
