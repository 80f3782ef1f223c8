import OvaLib.Solver.Simplex

/-!
# Branch and bound

`bb_solve` and `bc_solve` are the same recursion around two different relaxations: a plain call of
the simplex solver, and a cutting-plane loop. `searchSolve` is that recursion with the relaxation as
a parameter, and `branchSolver` is the driver the two public entry points share; `bbSolve` and
`branchAndBoundSolver` are their instances for branch and bound.

## The search

A node has a problem whose variables are shifted: the offsets say by how much, and the shifted
objective with the accumulated offset is the objective of the original problem. The node is counted,
relaxed, and pruned if its bound is no better than the incumbent. If its solution is integral and
satisfies the original problem, it becomes the incumbent when it is better. Otherwise a variable is
chosen. The floor child has one row more, and the ceil child has the variable shifted by its new
lower bound; two guards skip a child whose bound would be negative. Not more than 10000 nodes are
counted.

## Implementation notes

A run works with fuel, which bounds the recursion depth and the pivots of each relaxation, and
answers `none` when the fuel runs out. Allocations succeed; `StoredSearch` is about those that do
not.

## The ghost source

`Incumbent.source` records the node whose relaxation gave the incumbent, and `Source` the path on
which an answer left a solver. Neither is read by the program's functions.
-/

namespace OvaLib

namespace Solver

open Finset

/-- `BB_MAX_NODES` and `BC_MAX_NODES`. -/
def maxNodes : ℕ := 10000

/-- An `OPTIMAL` relaxation: what was solved, and what the simplex solver left behind. -/
structure Relaxation where
  /-- The problem that was solved, with its cuts if there are any. -/
  problem : LpProblem
  solution : ℕ → ℚ
  objectiveValue : ℚ
  tableau : Tableau

/-- The node an incumbent came from. -/
structure Node where
  relaxation : Relaxation
  /-- What the variables are shifted by. -/
  offsets : ℕ → ℚ
  objOffset : ℚ

/-- The search state that `bb_solve` updates through its pointers. -/
structure Incumbent where
  bestObj : ℚ
  /-- The solution, in the variables of the original problem. -/
  bestSol : ℕ → ℚ
  nodes : ℕ
  /-- Ghost: the node that last updated the incumbent. -/
  source : Option Node

/-- The value the incumbent starts from. -/
def initialBest (type : ProblemType) : ℚ :=
  match type with
  | .max => -dblMax
  | .min => dblMax

/-- The two bound tests: the node cannot improve the incumbent. -/
def isPruned (type : ProblemType) (objVal bestObj : ℚ) : Bool :=
  match type with
  | .max => objVal ≤ bestObj && -dblMax < bestObj
  | .min => bestObj ≤ objVal && bestObj < dblMax

/-- A value strictly better than the incumbent. -/
def improves (type : ProblemType) (objVal bestObj : ℚ) : Bool :=
  match type with
  | .max => bestObj < objVal
  | .min => objVal < bestObj

/-- No incumbent was found: the best value is still the initial one. -/
def noIncumbent (type : ProblemType) (bestObj : ℚ) : Bool :=
  match type with
  | .max => bestObj ≤ -dblMax + 1
  | .min => dblMax - 1 ≤ bestObj

/-- The distance of a value to the integer grid, as the branching scan measures it. -/
def fractionality (value : ℚ) : ℚ :=
  let frac := value - ⌊value⌋
  if 1 / 2 < frac then 1 - frac else frac

/-- `find_branching_variable` (and `bc_find_branching_variable`): the first variable that is most
fractional, if any is more than `1e-6` away from an integer. -/
def findBranchingVariable (solution : ℕ → ℚ) (numVars : ℕ) : Option ℕ :=
  ((List.range numVars).foldl
    (fun (best : ℚ × Option ℕ) i =>
      if intTol < fractionality (solution i) ∧ best.1 < fractionality (solution i) then
        (fractionality (solution i), some i)
      else best)
    (0, none)).2

/-- `bb_solve` and `bc_solve`, for a relaxation procedure `relax`. The original problem `orig`
carries the variable count, the direction and the rows of the feasibility check. The procedure
answers `some none` when its status is not `OPTIMAL`. -/
def searchSolve (relax : ℕ → LpProblem → (ℕ → ℚ) → Option (Option Relaxation)) (orig : LpProblem) :
    ℕ → LpProblem → (ℕ → ℚ) → ℚ → Incumbent → Option Incumbent
  | 0, _, _, _, _ => none
  | fuel + 1, problem, offsets, objOffset, start =>
    if maxNodes ≤ start.nodes then some start
    else
      let inc := { start with nodes := start.nodes + 1 }
      match relax fuel problem offsets with
      | none => none
      | some none => some inc
      | some (some R) =>
        let objVal := R.objectiveValue + objOffset
        let trueSol := fun i => R.solution i + offsets i
        if isPruned orig.type objVal inc.bestObj then some inc
        else if solutionIsInteger trueSol orig.variableCount && checkFeasibility orig trueSol then
          if improves orig.type objVal inc.bestObj then
            some { inc with
              bestObj := objVal
              bestSol := trueSol
              source := some ⟨R, offsets, objOffset⟩ }
          else some inc
        else
          match findBranchingVariable trueSol orig.variableCount with
          | none => some inc
          | some j =>
            -- floor child: `x_j ≤ ⌊v⌋`, one more row over the same offsets
            let ub := (⌊trueSol j⌋ : ℚ) - offsets j
            let afterFloor :=
              if 0 ≤ ub then
                searchSolve relax orig fuel
                  (problem.cloneProblem.addConstraint (LpProblem.unitRow j) ub) offsets
                  objOffset inc
              else some inc
            match afterFloor with
            | none => none
            | some inc' =>
              -- ceil child: `x_j ≥ ⌈v⌉`, by shifting the origin of `x_j`
              let newLb := (⌈trueSol j⌉ : ℚ)
              let subLb := newLb - offsets j
              if 0 ≤ subLb then
                let child := problem.cloneWithLowerBound j subLb
                searchSolve relax orig fuel child.1 (Function.update offsets j newLb)
                  (objOffset + child.2) inc'
              else some inc'

/-- A matrix handed back through `out_tableau`. -/
structure OutMatrix where
  rows : ℕ
  cols : ℕ
  data : ℕ → ℕ → ℚ

/-- The final tableau as the caller sees it. -/
def Tableau.toOutMatrix (T : Tableau) : OutMatrix := ⟨T.rows + 1, T.width + 1, T.data⟩

/-- The one-row matrix an integer solver builds from its answer. -/
def summaryMatrix (numVars : ℕ) (solution : ℕ → ℚ) (objectiveValue : ℚ) : OutMatrix where
  rows := 1
  cols := numVars + 1
  data := fun _ j => if j < numVars then solution j else objectiveValue

/-- Ghost: the path on which an `OPTIMAL` answer left an integer solver. -/
inductive Source
  /-- The relaxation of the original problem was accepted as integral. -/
  | root (T : Tableau)
  /-- The incumbent of the search, with the node it came from. -/
  | incumbent (node : Option Node)
  /-- The relaxation was rounded component by component. -/
  | rounded (T : Tableau)
  /-- A rounded candidate that passed the feasibility check. -/
  | candidate

/-- What a call of an integer solver leaves behind. -/
inductive IntegerResult
  | optimal (solution : ℕ → ℚ) (objectiveValue : ℚ) (outTableau : OutMatrix) (source : Source)
  | stopped (status : Status)

/-- The body shared by `branch_and_bound_solver` and `branch_and_cut_solver`. -/
def branchSolver (relax : ℕ → LpProblem → (ℕ → ℚ) → Option (Option Relaxation)) (fuel : ℕ)
    (prob : LpProblem) : Option IntegerResult :=
  match simplexSolver fuel prob.cloneProblem with
  | none => none
  | some (.unbounded _) => some (.stopped .unbounded)
  | some .infeasible => some (.stopped .infeasible)
  | some (.optimal x obj T) =>
    if solutionIsInteger x prob.variableCount then some (.optimal x obj T.toOutMatrix (.root T))
    else
      match searchSolve relax prob fuel prob.cloneProblem (fun _ => 0) 0
          ⟨initialBest prob.type, fun _ => 0, 0, none⟩ with
      | none => none
      | some inc =>
        if noIncumbent prob.type inc.bestObj then some (.stopped .infeasible)
        else
          some (.optimal inc.bestSol inc.bestObj
            (summaryMatrix prob.variableCount inc.bestSol inc.bestObj) (.incumbent inc.source))

/-- The relaxation of `bb_solve`: one call of the simplex solver. -/
def bbRelax (fuel : ℕ) (problem : LpProblem) (_offsets : ℕ → ℚ) : Option (Option Relaxation) :=
  match simplexSolver fuel problem with
  | none => none
  | some (.optimal x obj T) => some (some ⟨problem, x, obj, T⟩)
  | some _ => some none

/-- `bb_solve`. -/
def bbSolve := searchSolve bbRelax

/-- `branch_and_bound_solver`. -/
def branchAndBoundSolver := branchSolver bbRelax

end Solver

end OvaLib
