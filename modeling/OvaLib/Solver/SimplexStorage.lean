import OvaLib.Foundation.Scan
import OvaLib.Solver.ProblemStorage
import OvaLib.Solver.Simplex

/-!
# The simplex solver in memory

`simplex_solver` on the heap: it builds its tableau as a matrix, pivots in place, and puts the
solution into the problem. The loop runs on fuel; `none` means that the fuel ran out. A column or a
row that was not found, `-1` in the source, is `none`.

## What it allocates

The tableau is a matrix of four blocks. It is handed to the caller through `out_tableau` when the
loop ends, unless the array for the solution, which is made on the first solve of a problem, is not
to be had. The problem keeps that array for later solves. A solver is one more block, and the
function it calls is found through its `solve_fn`; the other solvers of the library make their own
simplex solver and call it in the same way.

Every cell that the loop reads is reached through the table of the matrix, as `tableau->data[i][j]`
is. The tableau of `Simplex` is what these cells show.

`out_tableau` is never `NULL` here.
-/

namespace OvaLib

namespace Solver

namespace ProblemStorage

open Foundation Matrix.Storage

/-- `tableau->cols - 1` -/
def lastColumn (tableau : MatrixFields) : ℕ := (tableau.cols - 1).toNat

/-- The tableau before the first iteration. -/
def fillTableau (problem : ProblemFields) (constraints tableau : MatrixFields)
    (objective bounds : VectorFields) (rows cols : ℕ) : Effect ℚ Unit := do
  forRange rows (fun i _ => do
    forRange cols (fun j _ => do tableau.setEntry i j (← constraints.entry i j)) ()
    tableau.setEntry i (cols + i) 1
    tableau.setEntry i (lastColumn tableau) (← numberAt bounds.data i)) ()
  forRange cols (fun j _ => do
    let coefficient ← numberAt objective.data j
    tableau.setEntry rows j
      (if problem.type = typeNumber .min then coefficient else -coefficient)) ()

/-- The most negative reduced cost, with the column it is in. -/
def findPivotColumn (tableau : MatrixFields) (rows cols : ℕ) : Effect ℚ (Option ℕ) := do
  let (_, pivotCol) ← forRange (cols + rows) (fun j best => do
    let value ← tableau.entry rows j
    pure (if value < best.1 then (value, some j) else best)) (-1 / 1000000000, none)
  pure pivotCol

/-- The smallest ratio, with the row it is in. -/
def findPivotRow (tableau : MatrixFields) (rows pivotCol : ℕ) : Effect ℚ (Option ℕ) := do
  let (_, pivotRow) ← forRange rows (fun i best => do
    let pivotCandidate ← tableau.entry i pivotCol
    if pivotCandidate > 1 / 1000000000 then
      let rhs ← tableau.entry i (lastColumn tableau)
      let a ← tableau.entry i pivotCol
      pure (if rhs / a ≥ 0 ∧ rhs / a < best.1 then (rhs / a, some i) else best)
    else pure best) (dblMax, none)
  pure pivotRow

/-- Whether column `i` looks like the unit vector of row `r`; once an entry has failed, the loop
does nothing. -/
def columnIsBasic (tableau : MatrixFields) (rows i r : ℕ) : Effect ℚ Bool :=
  forRange rows (fun rr basic => do
    if basic ∧ rr ≠ r then
      let a ← tableau.entry rr i
      pure (decide (¬ |a| > 1 / 10000000))
    else pure basic) true

/-- The value of variable `i` is put into the solution; once a row has been found, the loop does
nothing. -/
def extractVariable (tableau : MatrixFields) (rows : ℕ) (solution : Option Pointer) (i : ℕ) :
    Effect ℚ Unit := do
  setCell solution i (.number 0)
  let _ ← forRange rows (fun r found => do
    if found then pure true
    else
      let a ← tableau.entry r i
      if |a - 1| < 1 / 10000000 then
        if ← columnIsBasic tableau rows i r then
          setCell solution i (.number (← tableau.entry r (lastColumn tableau)))
          pure true
        else pure false
      else pure false) false
  pure ()

/-- The pivot. -/
def pivotTableau (tableau : MatrixFields) (rows pivotRow pivotCol : ℕ) (pivotValue : ℚ) :
    Effect ℚ Unit := do
  forRange tableau.cols.toNat (fun j _ => do
    tableau.setEntry pivotRow j ((← tableau.entry pivotRow j) / pivotValue)) ()
  forRange (rows + 1) (fun i _ => do
    if i ≠ pivotRow then
      let factor ← tableau.entry i pivotCol
      forRange tableau.cols.toNat (fun j _ => do
        tableau.setEntry i j
          ((← tableau.entry i j) - (← tableau.entry pivotRow j) * factor)) ()) ()

/-- The array for the solution of a problem, which may have to be made; `NULL` if it cannot. -/
def solutionArray (problem : ProblemFields) (cols : ℕ) : Effect ℚ (Option Pointer) := do
  if problem.solution = none then
    let solution ← calloc (List.replicate cols (.number 0))
    setCell problem.impl 7 (.pointer solution)
    return solution
  else return problem.solution

/-- `while (1)`, with the return value and with what is left in `*out_tableau`. -/
def simplexLoop (problem : ProblemFields) (outTableau : Option Pointer) (tableau : MatrixFields)
    (rows cols : ℕ) : ℕ → Effect ℚ (Option (Status × Option Pointer))
  | 0 => pure none
  | fuel + 1 => do
    match ← findPivotColumn tableau rows cols with
    | none =>
      let solution ← solutionArray problem cols
      if solution = none then
        matrixFreeMethod outTableau
        return some (.infeasible, none)
      forRange cols (fun i _ => extractVariable tableau rows solution i) ()
      setCell problem.impl 8 (.number (← tableau.entry rows (lastColumn tableau)))
      if problem.type = typeNumber .min then
        setCell problem.impl 8 (.number (-(← numberAt problem.impl 8)))
      return some (.optimal, outTableau)
    | some pivotCol =>
      match ← findPivotRow tableau rows pivotCol with
      | none => return some (.unbounded, outTableau)
      | some pivotRow =>
        let pivotValue ← tableau.entry pivotRow pivotCol
        if |pivotValue| < 1 / 1000000000000 then
          matrixFreeMethod outTableau
          return some (.infeasible, none)
        pivotTableau tableau rows pivotRow pivotCol pivotValue
        simplexLoop problem outTableau tableau rows cols fuel

/-- `simplex_solver`, with what it leaves in `*out_tableau`. -/
def simplexSolver (fuel : ℕ) (prob : Option Pointer) :
    Effect ℚ (Option (Status × Option Pointer)) := do
  match ← lpProblemImplFromPublic prob with
  | none => return some (.infeasible, none)
  | some problem =>
    let constraints ← matrixImplFromMatrix problem.constraints
    let objective ← vectorImplFromVector problem.objective
    let bounds ← vectorImplFromVector problem.bounds
    match constraints, objective, bounds with
    | some constraints, some objective, some bounds =>
      let rows := problem.constraintCount
      let cols := constraints.cols
      if rows ≤ 0 ∨ cols ≤ 0 then return some (.infeasible, none)
      let outTableau ← createMatrix (rows + 1) (cols + rows + 1)
      match ← matrixImplFromMatrix outTableau with
      | none => return some (.infeasible, none)
      | some tableau =>
        fillTableau problem constraints tableau objective bounds rows.toNat cols.toNat
        simplexLoop problem outTableau tableau rows.toNat cols.toNat fuel
    | _, _, _ => return some (.infeasible, none)

/-! ## Solvers -/

/-- The functions that `solve_fn` may point to, by number; 0 is `NULL`. -/
abbrev SolveFns := ℤ → Option Pointer → Effect ℚ (Option (Status × Option Pointer))

/-- `SOLVER_SIMPLEX` -/
def solverSimplex : ℤ := 3

/-- `create_solver`; the `solve_fn` of a `SolverType` is the next number. -/
def createSolver (type : ℤ) : Effect ℚ (Option Pointer) := do
  let out ← calloc [.pointer none]
  if out = none then return none
  let impl ← calloc [.int 0, .int 0]
  if impl = none then
    free out
    return none
  setCell impl 0 (.int type)
  if 0 ≤ type ∧ type ≤ 3 then
    setCell impl 1 (.int (type + 1))
    setCell out 0 (.pointer impl)
    return out
  else
    free impl
    free out
    return none

/-- `solver_dispatch`, with what it leaves in `*out_tableau`. -/
def solverDispatch (solveFns : SolveFns) (self problem : Option Pointer) :
    Effect ℚ (Option (Status × Option Pointer)) :=
  match self with
  | none => return some (.infeasible, none)
  | some self => do
    let impl ← pointerAt (some self) 0
    if impl = none then return some (.infeasible, none)
    let solveFn ← intAt impl 1
    if solveFn = 0 then return some (.infeasible, none)
    solveFns solveFn problem

/-- The solver of a `solve_fn`, for a fuel; the other ones are not called. -/
def simplexOnly (fuel : ℕ) : SolveFns := fun fn problem =>
  if fn = solverSimplex + 1 then simplexSolver fuel problem else undefined

/-- `solver_free_method`. -/
def solverFreeMethod (self : Option Pointer) : Effect ℚ Unit := do
  if self = none then return ()
  free (← pointerAt self 0)
  setCell self 0 (.pointer none)
  free self

end ProblemStorage

end Solver

end OvaLib
