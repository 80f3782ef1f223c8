import OvaLib.Foundation.Scan
import OvaLib.Solver.Problem

/-!
# The simplex solver

`simplex_solver` keeps one dense tableau: `rows` constraint rows followed by the objective row, and
`cols + rows + 1` columns, the structural ones first, then one slack column for each row and the
right-hand side last. It pivots by Dantzig's rule until no reduced cost is below `-1e-9`, and then
*guesses* the basis back by looking for unit columns.

## One phase

The slack basis is where the loop starts, whatever the bounds. A bound below zero makes that basis
infeasible, and nothing in the loop repairs it: the ratio test leaves out negative ratios, and the
loop ends when the objective row says so. For problems without negative bounds every basis on the
way is feasible; for others the answer may be anything, and `SimplexVerdict` says when it is right.

## The ghost basis

The source never stores which column is basic in which row. `Tableau.basis` records it, so that the
properties of a run can be stated; no function of the program reads it.

## Main definitions

* `Tableau`, `initialTableau`, `Tableau.pivot`
* `enteringColumn`, `leavingRow` — the two scans of one iteration
* `readColumn` — the unit-column test that extracts the solution
* `simplexStep`, `simplexLoop`, `simplexSolver`; the loop runs on fuel, and `none` means that the
  fuel ran out
-/

namespace OvaLib

namespace Solver

open Finset Foundation

/-- The working tableau. -/
structure Tableau where
  /-- Number of constraint rows; the objective row has this index. -/
  rows : ℕ
  /-- Number of structural columns. -/
  cols : ℕ
  /-- The entries, row first. -/
  data : ℕ → ℕ → ℚ
  /-- Ghost: the column last pivoted into each row. -/
  basis : ℕ → ℕ

namespace Tableau

/-- Number of columns other than the right-hand side. -/
def width (T : Tableau) : ℕ := T.cols + T.rows

/-- The right-hand side of row `i`, stored in the last column. -/
def rhs (T : Tableau) (i : ℕ) : ℚ := T.data i T.width

/-- The two nested loops of a pivot on row `r` and column `c`: scale row `r`, then clear column
`c` from every other row, the objective row included. -/
def pivot (T : Tableau) (r c : ℕ) : Tableau where
  rows := T.rows
  cols := T.cols
  data := fun i j =>
    if i = r then T.data r j / T.data r c
    else T.data i j - T.data r j / T.data r c * T.data i c
  basis := Function.update T.basis r c

/-- Column `j` looks like the unit vector of row `r`: the entry in row `r` is within `1e-7` of
one and no other row holds more than `1e-7`. -/
def isBasic (T : Tableau) (j r : ℕ) : Bool :=
  |T.data r j - 1| < 1 / 10000000 &&
    (List.range T.rows).all fun rr => rr = r || |T.data rr j| ≤ 1 / 10000000

/-- The row the extraction loop stops at for column `j`. -/
def readRow (T : Tableau) (j : ℕ) : Option ℕ := (List.range T.rows).find? (T.isBasic j)

/-- The value the extraction loop stores for variable `j`: the right-hand side of the first row
whose unit vector the column looks like, and zero when there is none. -/
def readColumn (T : Tableau) (j : ℕ) : ℚ :=
  match T.readRow j with
  | some r => T.rhs r
  | none => 0

end Tableau

/-- The tableau `simplex_solver` builds before its loop. -/
def initialTableau (p : LpProblem) : Tableau where
  rows := p.constraintCount
  cols := p.variableCount
  data := fun i j =>
    if i < p.constraintCount then
      if j < p.variableCount then p.constraints i j
      else if j = p.variableCount + i then 1
      else if j = p.variableCount + p.constraintCount then p.bounds i
      else 0
    else if i = p.constraintCount ∧ j < p.variableCount then
      match p.type with
      | .min => p.objective j
      | .max => -p.objective j
    else 0
  basis := fun i => p.variableCount + i

/-- The entering column: the first most negative reduced cost below `-1e-9`. -/
def enteringColumn (T : Tableau) : Option ℕ :=
  scanMin (fun j => some (T.data T.rows j)) (-1 / 1000000000) T.width

/-- The leaving row: the first smallest non-negative ratio among entries above `1e-9`. -/
def leavingRow (T : Tableau) (c : ℕ) : Option ℕ :=
  scanMin
    (fun i =>
      if 1 / 1000000000 < T.data i c ∧ 0 ≤ T.rhs i / T.data i c then some (T.rhs i / T.data i c)
      else none)
    dblMax T.rows

/-- One iteration of the `while (1)` loop: stop with a status, or pivot. -/
inductive StepResult
  | stop (status : Status)
  | pivoted (T : Tableau)

/-- The body of the loop. -/
def simplexStep (T : Tableau) : StepResult :=
  match enteringColumn T with
  | none => .stop .optimal
  | some c =>
    match leavingRow T c with
    | none => .stop .unbounded
    | some r =>
      if |T.data r c| < 1 / 1000000000000 then .stop .infeasible else .pivoted (T.pivot r c)

/-- The loop, with the tableau it stops at. -/
def simplexLoop : ℕ → Tableau → Option (Status × Tableau)
  | 0, _ => none
  | fuel + 1, T =>
    match simplexStep T with
    | .stop status => some (status, T)
    | .pivoted T' => simplexLoop fuel T'

/-- What a call of `simplex_solver` leaves behind: the return code, and on `OPTIMAL` the solution
vector, the objective value and the tableau handed back through `out_tableau`. -/
inductive SimplexResult
  | optimal (solution : ℕ → ℚ) (objectiveValue : ℚ) (tableau : Tableau)
  | unbounded (tableau : Tableau)
  | infeasible

/-- The tableau of an optimum. -/
def SimplexResult.optimalTableau : SimplexResult → Option Tableau
  | .optimal _ _ T => some T
  | _ => none

/-- The return code of a call. -/
def SimplexResult.status : SimplexResult → Status
  | .optimal .. => .optimal
  | .unbounded _ => .unbounded
  | .infeasible => .infeasible

/-- The objective value stored on `OPTIMAL`: the corner of the tableau, negated for a
minimisation. -/
def storedObjective (p : LpProblem) (T : Tableau) : ℚ :=
  match p.type with
  | .min => -T.rhs T.rows
  | .max => T.rhs T.rows

/-- `simplex_solver`. -/
def simplexSolver (fuel : ℕ) (p : LpProblem) : Option SimplexResult :=
  if p.constraintCount = 0 ∨ p.variableCount = 0 then some .infeasible
  else
    match simplexLoop fuel (initialTableau p) with
    | none => none
    | some (.optimal, T) => some (.optimal T.readColumn (storedObjective p T) T)
    | some (.unbounded, T) => some (.unbounded T)
    | some (.infeasible, _) => some .infeasible

end Solver

end OvaLib
