import OvaLib.Solver.BranchAndBound
import OvaLib.Solver.SimplexStorage

/-!
# Branch and bound in memory

`branch_and_bound_solver` on the heap. Every node of the search makes a solver, a tableau, a vector
for the solution and copies of its problem, and gives them back. The incumbent is in an array and in
two variables of the caller, which are a state here.

## Ownership

A node borrows its problem and the array of the incumbent from its caller, and owns what it makes.
The child problems and the arrays for their offsets are made before a child is searched and freed
after it. The function has many ways out, one for each allocation that may fail and one for each way
a node can end, and each of them frees what has been made by then. The model has the same ways out,
cut into the parts of the function that end with one.

A node for which something is not to be had is given up, and the search goes on with the next. So
with allocations failing the answer may be a worse one, or none.

The recursion runs on fuel; `none` means that the fuel ran out. A branching variable that was not
found, `-1` in the source, is `none`.
-/

namespace OvaLib

namespace Solver

namespace ProblemStorage

open Foundation Matrix.Storage

/-- `solution_is_integer`; once a value has failed, the loop does nothing. -/
def solutionIsInteger (solution : Option Pointer) (numVars : ℕ) : Effect ℚ Bool :=
  forRange numVars (fun i integer => do
    if integer then
      let value ← numberAt solution i
      pure (isInteger value)
    else pure false) true

/-- `check_original_feasibility`; once a row has failed, the loop does nothing. -/
def checkOriginalFeasibility (solution : Option Pointer) (numVars : ℕ)
    (constraints : MatrixFields) (bounds : VectorFields) (numConstraints : ℕ) : Effect ℚ Bool :=
  forRange numConstraints (fun i feasible => do
    if feasible then
      let lhs ← forRange numVars (fun j lhs => do
        let a ← constraints.entry i j
        let x ← numberAt solution j
        pure (lhs + a * x)) 0
      let bound ← numberAt bounds.data i
      pure (decide (¬ lhs > bound + intTol))
    else pure false) true

/-- `find_branching_variable` -/
def findBranchingVariable (solution : Option Pointer) (numVars : ℕ) : Effect ℚ (Option ℕ) := do
  let (_, bestIdx) ← forRange numVars (fun i best => do
    let value ← numberAt solution i
    let frac := value - ⌊value⌋
    let dist := if frac > 1 / 2 then 1 - frac else frac
    pure (if dist > intTol ∧ dist > best.1 then (dist, some i) else best)) (0, none)
  pure bestIdx

/-- `*best_obj` and `*nodes`. -/
structure SearchVars where
  bestObj : ℚ
  nodes : ℕ

/-- What is done with the solver and the tableau of a node. -/
def freeSolve (tableau lpSolver : Option Pointer) : Effect ℚ Unit := do
  if tableau ≠ none then matrixFreeMethod tableau
  solverFreeMethod lpSolver

/-- What `bb_solve` is told of the original problem, and where it puts its solution. -/
structure SearchContext where
  bestSol : Option Pointer
  numVars : ℕ
  isMax : Bool
  origConstraints : MatrixFields
  origBounds : VectorFields
  origNumConstr : ℕ

/-- A child is searched, and then freed with the array that was made for it. -/
def searchChild (search : Option Pointer → SearchVars → Effect ℚ (Option SearchVars))
    (array child : Option Pointer) (st : SearchVars) : Effect ℚ (Option SearchVars) := do
  match ← search child st with
  | none => return none
  | some st' =>
    free array
    solverProblemFree child
    return some st'

/-- The floor child of a node, searched by `search`. -/
def searchFloorChild (search : Option Pointer → SearchVars → Effect ℚ (Option SearchVars))
    (problem offsets : Option Pointer) (branchVar : ℕ) (branchVal : ℚ) (st : SearchVars) :
    Effect ℚ (Option SearchVars) := do
  match ← cloneProblem problem with
  | none => return some st
  | some (child, _) =>
    match ← lpProblemImplFromPublic child with
    | none =>
      solverProblemFree child
      return some st
    | some ci =>
      match ← matrixImplFromMatrix ci.constraints with
      | none =>
        solverProblemFree child
        return some st
      | some cc =>
        let row ← calloc (List.replicate cc.cols.toNat (.number 0))
        if row = none then
          solverProblemFree child
          return some st
        setCell row branchVar (.number 1)
        let ub := ⌊branchVal⌋ - (← numberAt offsets branchVar)
        if ub ≥ 0 then
          let _ ← solverAddConstraint child row ub
          searchChild search row child st
        else
          free row
          solverProblemFree child
          return some st

/-- The ceil child of a node, searched by `search`. -/
def searchCeilChild (numVars : ℕ) (search : Option Pointer → Option Pointer → ℚ → SearchVars →
    Effect ℚ (Option SearchVars)) (problem offsets : Option Pointer) (objOffset : ℚ)
    (branchVar : ℕ) (branchVal : ℚ) (st : SearchVars) : Effect ℚ (Option SearchVars) := do
  let newLb : ℚ := ⌈branchVal⌉
  let subLb := newLb - (← numberAt offsets branchVar)
  if subLb ≥ 0 then
    match ← cloneWithLowerBound problem branchVar subLb with
    | none => return some st
    | some (child, childObjOffset) =>
      let newOffsets ← calloc (List.replicate numVars .raw)
      if newOffsets = none then
        solverProblemFree child
        return some st
      memcpy newOffsets offsets numVars
      setCell newOffsets branchVar (.number newLb)
      searchChild (fun child st => search child newOffsets (objOffset + childObjOffset) st)
        newOffsets child st
  else return some st

/-- The children of a node, one after the other. -/
def searchChildren (numVars : ℕ) (search : Option Pointer → Option Pointer → ℚ → SearchVars →
    Effect ℚ (Option SearchVars)) (problem offsets : Option Pointer) (objOffset : ℚ)
    (branchVar : ℕ) (branchVal : ℚ) (st : SearchVars) : Effect ℚ (Option SearchVars) := do
  match ← searchFloorChild (fun child st => search child offsets objOffset st) problem offsets
      branchVar branchVal st with
  | none => return none
  | some st => searchCeilChild numVars search problem offsets objOffset branchVar branchVal st

/-- What is found out about a node: it is done with, or a variable is to be branched on. -/
inductive Judgement
  | finished (st : SearchVars)
  | branch (branchVar : ℕ) (branchVal : ℚ)

/-- What a judgement leads to. -/
def followJudgement (numVars : ℕ) (search : Option Pointer → Option Pointer → ℚ → SearchVars →
    Effect ℚ (Option SearchVars)) (problem offsets : Option Pointer) (objOffset : ℚ)
    (st : SearchVars) : Judgement → Effect ℚ (Option SearchVars)
  | .finished st => pure (some st)
  | .branch branchVar branchVal =>
    searchChildren numVars search problem offsets objOffset branchVar branchVal st

/-- Whether the solution of a node is integral and satisfies the original problem. -/
def isAccepted (ctx : SearchContext) (trueSol : Option Pointer) : Effect ℚ Bool := do
  if ← solutionIsInteger trueSol ctx.numVars then
    checkOriginalFeasibility trueSol ctx.numVars ctx.origConstraints ctx.origBounds
      ctx.origNumConstr
  else return false

/-- An accepted solution may become the incumbent, and one that is not may be branched on. -/
def concludeNode (ctx : SearchContext) (trueSol : Option Pointer) (objVal : ℚ) (st : SearchVars)
    (accepted : Bool) : Effect ℚ Judgement := do
  if accepted then
    if (if ctx.isMax then objVal > st.bestObj else objVal < st.bestObj) then
      memcpy ctx.bestSol trueSol ctx.numVars
      free trueSol
      return .finished { st with bestObj := objVal }
    else
      free trueSol
      return .finished st
  else
    match ← findBranchingVariable trueSol ctx.numVars with
    | none =>
      free trueSol
      return .finished st
    | some branchVar =>
      let branchVal ← numberAt trueSol branchVar
      free trueSol
      return .branch branchVar branchVal

/-- The middle part of `bb_solve`, from the objective value to the branching variable. -/
def judgeNode (ctx : SearchContext) (impl : ProblemFields) (offsets : Option Pointer)
    (objOffset : ℚ) (st : SearchVars) : Effect ℚ Judgement := do
  let objVal := impl.objectiveValue + objOffset
  if ctx.isMax ∧ objVal ≤ st.bestObj ∧ st.bestObj > -dblMax then return .finished st
  if ¬ ctx.isMax ∧ objVal ≥ st.bestObj ∧ st.bestObj < dblMax then return .finished st
  let trueSol ← calloc (List.replicate ctx.numVars .raw)
  if trueSol = none then return .finished st
  forRange ctx.numVars (fun i _ => do
    setCell trueSol i (.number ((← numberAt impl.solution i) + (← numberAt offsets i)))) ()
  let accepted ← isAccepted ctx trueSol
  concludeNode ctx trueSol objVal st accepted

/-- `bb_solve` -/
def bbSolve (ctx : SearchContext) : ℕ → Option Pointer → Option Pointer → ℚ → SearchVars →
    Effect ℚ (Option SearchVars)
  | 0, _, _, _, _ => pure none
  | fuel + 1, problem, offsets, objOffset, st => do
    if st.nodes ≥ maxNodes then return some st
    let st : SearchVars := { st with nodes := st.nodes + 1 }
    let lpSolver ← createSolver solverSimplex
    if lpSolver = none then return some st
    match ← solverDispatch (simplexOnly fuel) lpSolver problem with
    | none => return none
    | some (status, tableau) =>
      let outcome : Judgement ←
        if status ≠ .optimal then pure (.finished st)
        else do
          match ← lpProblemImplFromPublic problem with
          | none => pure (.finished st)
          | some impl =>
            if impl.solution = none then pure (.finished st)
            else judgeNode ctx impl offsets objOffset st
      freeSolve tableau lpSolver
      followJudgement ctx.numVars
        (fun child offsets objOffset st => bbSolve ctx fuel child offsets objOffset st)
        problem offsets objOffset st outcome

/-- The relaxation of the root is integral and is the answer. -/
def acceptRoot (impl ri : ProblemFields) : Effect ℚ Unit := do
  let numVars := impl.variableCount.toNat
  let solution ← solutionArray impl numVars
  if solution ≠ none then memcpy solution ri.solution numVars
  setCell impl.impl 8 (.number ri.objectiveValue)

/-- The incumbent is the answer: what is put into the problem, and the matrix of one row. -/
def acceptIncumbent (impl : ProblemFields) (bestSol : Option Pointer) (bestObj : ℚ) :
    Effect ℚ (Status × Option Pointer) := do
  let numVars := impl.variableCount.toNat
  let solution ← solutionArray impl numVars
  if solution = none then
    free bestSol
    return (.infeasible, none)
  memcpy solution bestSol numVars
  setCell impl.impl 8 (.number bestObj)
  free bestSol
  let outTableau ← createMatrix 1 (numVars + 1)
  if outTableau = none then return (.optimal, none)
  match ← matrixImplFromMatrix outTableau with
  | none => return (.optimal, outTableau)
  | some tab =>
    forRange numVars (fun i _ => do tab.setEntry 0 i (← numberAt solution i)) ()
    tab.setEntry 0 numVars (← numberAt impl.impl 8)
    return (.optimal, outTableau)

/-- The search from the root, which is freed. -/
def searchFromRoot (fuel : ℕ) (impl : ProblemFields) (root : Option Pointer) :
    Effect ℚ (Option (Status × Option Pointer)) := do
  let numVars := impl.variableCount.toNat
  let isMax := decide (impl.type = typeNumber .max)
  let bestSol ← calloc (List.replicate numVars (.number 0))
  let offsets ← calloc (List.replicate numVars (.number 0))
  if bestSol = none ∨ offsets = none then
    free bestSol
    free offsets
    solverProblemFree root
    return some (.infeasible, none)
  let origC ← matrixImplFromMatrix impl.constraints
  let origB ← vectorImplFromVector impl.bounds
  if impl.constraintCount > 0 ∧ (origC.bind (·.data) = none ∨ origB.bind (·.data) = none) then
    free bestSol
    free offsets
    solverProblemFree root
    return some (.infeasible, none)
  match origC, origB with
  | some origC, some origB =>
    let ctx : SearchContext :=
      ⟨bestSol, numVars, isMax, origC, origB, impl.constraintCount.toNat⟩
    match ← bbSolve ctx fuel root offsets 0 ⟨if isMax then -dblMax else dblMax, 0⟩ with
    | none => return none
    | some st =>
      solverProblemFree root
      free offsets
      if (isMax ∧ st.bestObj ≤ -dblMax + 1) ∨ (¬ isMax ∧ st.bestObj ≥ dblMax - 1) then
        free bestSol
        return some (.infeasible, none)
      return some (← acceptIncumbent impl bestSol st.bestObj)
  | _, _ => undefined

/-- `branch_and_bound_solver`, with what it leaves in `*out_tableau`. -/
def branchAndBoundSolver (fuel : ℕ) (prob : Option Pointer) :
    Effect ℚ (Option (Status × Option Pointer)) := do
  match ← lpProblemImplFromPublic prob with
  | none => return some (.infeasible, none)
  | some impl =>
    let lpSolver ← createSolver solverSimplex
    if lpSolver = none then return some (.infeasible, none)
    match ← cloneProblem prob with
    | none =>
      solverFreeMethod lpSolver
      return some (.infeasible, none)
    | some (root, _) =>
      match ← solverDispatch (simplexOnly fuel) lpSolver root with
      | none => return none
      | some (status, rootTableau) =>
        if status ≠ .optimal then
          freeSolve rootTableau lpSolver
          solverProblemFree root
          return some (status, none)
        match ← lpProblemImplFromPublic root with
        | none => undefined
        | some ri =>
          if ← solutionIsInteger ri.solution impl.variableCount.toNat then
            acceptRoot impl ri
            solverFreeMethod lpSolver
            solverProblemFree root
            return some (.optimal, rootTableau)
          freeSolve rootTableau lpSolver
          searchFromRoot fuel impl root

end ProblemStorage

end Solver

end OvaLib
