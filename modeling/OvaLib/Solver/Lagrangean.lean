import OvaLib.Solver.BranchAndBound

/-!
# The Lagrangean solver

`lagrangean_solver` returns the rounded relaxation when that is integral up to the tolerance.
Otherwise it runs a subgradient loop of at most 200 iterations that solves the problem under a
modified objective, rounds each solution to the nearest integers and downwards, and keeps the best
candidate that passes the feasibility check of the original problem.

The loop changes only the objective: the multipliers penalise the use of the rows, and the rows stay
in the problem. So each iteration solves a problem with the same feasible points and may find
another vertex of it. What a candidate is worth does not depend on the multipliers, as it is checked
and valued by the original problem; they decide which candidates turn up. For that reason the step
length, its shrinking and the gap are modelled as they are, and nothing is proved about them.
-/

namespace OvaLib

namespace Solver

open Finset

/-- `LR_MAX_ITER`. -/
def lrMaxIter : ℕ := 200

/-- `LR_STEP_TOL`. -/
def lrStepTol : ℚ := 1 / 100000000

/-- `LR_INITIAL_STEP`. -/
def lrInitialStep : ℚ := 2

/-- `LR_STEP_SHRINK`. -/
def lrStepShrink : ℚ := 1 / 2

/-- The state the subgradient loop carries from one iteration to the next. -/
structure LrState where
  /-- The multipliers, one for each row. -/
  lambda : ℕ → ℚ
  bestObj : ℚ
  /-- The best candidate, once there is one. -/
  bestSol : ℕ → ℚ
  stepSize : ℚ
  noImproveCount : ℕ

/-- The objective with Lagrangean penalties. -/
def lrModifiedObjective (p : LpProblem) (lambda : ℕ → ℚ) : ℕ → ℚ := fun j =>
  let penalty := ∑ i ∈ range p.constraintCount, lambda i * p.constraints i j
  match p.type with
  | .max => p.objective j - penalty
  | .min => p.objective j + penalty

/-- Keep a rounded vector when it is feasible and improves on the best objective. -/
def lrConsider (p : LpProblem) (s : LrState) (rounded : ℕ → ℚ) : LrState :=
  if checkFeasibility p rounded && improves p.type (p.objectiveAt rounded) s.bestObj then
    { s with bestObj := p.objectiveAt rounded, bestSol := rounded }
  else s

/-- A component rounded by `f`, negative results clamped to zero. -/
def lrRounded (f : ℚ → ℤ) (x : ℕ → ℚ) : ℕ → ℚ := fun j => if (f (x j) : ℚ) < 0 then 0 else f (x j)

/-- The step-size bookkeeping of an iteration. -/
def lrAdjustStep (p : LpProblem) (iter : ℕ) (bound : ℚ) (s : LrState) : LrState :=
  let boundImproved : Bool :=
    iter = 0 || match p.type with
      | .max => bound < s.bestObj + intTol
      | .min => s.bestObj - intTol < bound
  if boundImproved then { s with noImproveCount := 0 }
  else if 10 ≤ s.noImproveCount + 1 then
    { s with stepSize := s.stepSize * lrStepShrink, noImproveCount := 0 }
  else { s with noImproveCount := s.noImproveCount + 1 }

/-- The gap the step length uses. -/
def lrGap (p : LpProblem) (bound : ℚ) (s : LrState) : ℚ :=
  if noIncumbent p.type s.bestObj then |bound| + 1 else |bound - s.bestObj|

/-- The multiplier update: a subgradient step, clamped at zero. -/
def lrUpdateLambda (p : LpProblem) (t : ℚ) (subgradient lambda : ℕ → ℚ) : ℕ → ℚ := fun i =>
  let moved := match p.type with
    | .max => lambda i + t * subgradient i
    | .min => lambda i - t * subgradient i
  if moved < 0 then 0 else moved

/-- One iteration, after its relaxation answered `OPTIMAL` with `x` and `obj`. The flag says
whether the loop goes on. -/
def lrIterate (p : LpProblem) (iter : ℕ) (x : ℕ → ℚ) (obj : ℚ) (s : LrState) : Bool × LrState :=
  let s₁ := lrConsider p s (lrRounded cRound x)
  let s₂ := lrConsider p s₁ (lrRounded (fun v => ⌊v⌋) x)
  let bound := obj + ∑ i ∈ range p.constraintCount, s.lambda i * p.bounds i
  let s₃ := lrAdjustStep p iter bound s₂
  let subgradient := fun i => p.bounds i - p.lhs i x
  let normSq := ∑ i ∈ range p.constraintCount, subgradient i * subgradient i
  if s₃.stepSize < lrStepTol ∨ normSq < lrStepTol then (false, s₃)
  else if ¬ noIncumbent p.type s₃.bestObj ∧ lrGap p bound s₃ < lrStepTol then (false, s₃)
  else
    let t := s₃.stepSize * lrGap p bound s₃ / normSq
    (true, { s₃ with lambda := lrUpdateLambda p t subgradient s₃.lambda })

/-- The subgradient loop, with the iterations that are left. -/
def lrLoop (fuel : ℕ) (p : LpProblem) : ℕ → LrState → Option LrState
  | 0, s => some s
  | left + 1, s =>
    match simplexSolver fuel (p.setObjective (lrModifiedObjective p s.lambda) p.type) with
    | none => none
    | some (.optimal x obj _) =>
      match lrIterate p (lrMaxIter - (left + 1)) x obj s with
      | (false, s') => some s'
      | (true, s') => lrLoop fuel p left s'
    | some _ => some s

/-- `lagrangean_solver`. -/
def lagrangeanSolver (fuel : ℕ) (prob : LpProblem) : Option IntegerResult :=
  if prob.constraintCount = 0 then some (.stopped .infeasible)
  else
    match simplexSolver fuel prob.cloneProblem with
    | none => none
    | some (.unbounded _) => some (.stopped .unbounded)
    | some .infeasible => some (.stopped .infeasible)
    | some (.optimal x _ T) =>
      if solutionIsInteger x prob.variableCount then
        let rounded : ℕ → ℚ := fun j => cRound (x j)
        some (.optimal rounded (prob.objectiveAt rounded) T.toOutMatrix (.rounded T))
      else
        match lrLoop fuel prob lrMaxIter
            ⟨fun _ => 0, initialBest prob.type, fun _ => 0, lrInitialStep, 0⟩ with
        | none => none
        | some s =>
          if noIncumbent prob.type s.bestObj then some (.stopped .infeasible)
          else
            some (.optimal s.bestSol s.bestObj
              (summaryMatrix prob.variableCount s.bestSol s.bestObj) .candidate)

end Solver

end OvaLib
