import OvaLib.Solver.BranchAndBound

/-!
# Branch and cut

The cutting-plane relaxation of `bc_solve`: solve, stop when the solution is integral, otherwise add
the Gomory rows of the final tableau and solve again, at most ten times. The children of a node are
built from the node's own problem, without its cuts, so everything else is the search of
`BranchAndBound`.

## The rows that are added

A row of the final tableau whose right-hand side is further than `1e-6` from an integer gives a row
of fractional parts, with the fractional part of the right-hand side as its bound. At most ten rows
are added in a round. `add_gomory_cuts` takes the structural columns only and adds its row by
`add_constraint`, which means `≤`. `GomoryCuts` says what these rows do.

When a round ends at another status than `OPTIMAL`, so does the relaxation of the node, whatever the
rounds before it found.
-/

namespace OvaLib

namespace Solver

/-- `BC_MAX_CUTS`. -/
def maxCuts : ℕ := 10

/-- `BC_COEFF_LIMIT`. -/
def coeffLimit : ℚ := 1000000000000

/-- The fractional part of a tableau entry. -/
def fractionalPart (value : ℚ) : ℚ := value - ⌊value⌋

/-- The cut `add_gomory_cuts` derives from row `i`, unless the right-hand side is nearly integral
or a coefficient is out of range. -/
def gomoryCut (T : Tableau) (numVars i : ℕ) : Option ((ℕ → ℚ) × ℚ) :=
  let f0 := fractionalPart (T.rhs i)
  if f0 < intTol ∨ 1 - intTol < f0 then none
  else
    let validCut := (List.range numVars).all fun j =>
      !(fractionalPart (T.data i j) < -coeffLimit || coeffLimit < fractionalPart (T.data i j))
    if validCut && intTol < f0 then
      some (fun j => if j < numVars then fractionalPart (T.data i j) else 0, f0)
    else none

/-- `add_gomory_cuts`: add at most ten cuts, row by row; the count comes second. -/
def addGomoryCuts (problem : LpProblem) (T : Tableau) (numVars : ℕ) : LpProblem × ℕ :=
  (List.range T.rows).foldl
    (fun acc i =>
      if acc.2 < maxCuts then
        match gomoryCut T numVars i with
        | some cut => (acc.1.addConstraint cut.1 cut.2, acc.2 + 1)
        | none => acc
      else acc)
    (problem, 0)

/-- The cutting-plane loop of `bc_solve`, with the rounds that are left. `last` is the relaxation
of the previous round, which is the answer when the rounds run out. -/
def cutLoop (fuel numVars : ℕ) (offsets : ℕ → ℚ) :
    ℕ → LpProblem → Option Relaxation → Option (Option Relaxation)
  | 0, _, last => some last
  | rounds + 1, cutProblem, _ =>
    match simplexSolver fuel cutProblem with
    | none => none
    | some (.optimal x obj T) =>
      let R : Relaxation := ⟨cutProblem, x, obj, T⟩
      if solutionIsInteger (fun i => x i + offsets i) numVars then some (some R)
      else
        let cuts := addGomoryCuts cutProblem T numVars
        if cuts.2 = 0 then some (some R) else cutLoop fuel numVars offsets rounds cuts.1 (some R)
    | some _ => some none

/-- The relaxation of `bc_solve`. -/
def bcRelax (fuel : ℕ) (problem : LpProblem) (offsets : ℕ → ℚ) : Option (Option Relaxation) :=
  cutLoop fuel problem.variableCount offsets maxCuts problem.cloneProblem none

/-- `bc_solve`. -/
def bcSolve := searchSolve bcRelax

/-- `branch_and_cut_solver`. -/
def branchAndCutSolver := branchSolver bcRelax

end Solver

end OvaLib
