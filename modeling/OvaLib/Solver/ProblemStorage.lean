import OvaLib.Matrix.Storage
import OvaLib.Solver.Problem

/-!
# Linear problems in memory

The `lp_problem` of `solver.c` as it lies on the heap: the public struct, the `impl`, a matrix for
the rows, a vector for the objective and a vector for the bounds. There may be more rows in the
matrix than the problem has; `solver_ensure_constraint_capacity` makes room for others. The copies
that branch and bound and branch and cut make of a problem are in memory as well.

## What the functions trust

The arrays that are passed to `set_objective`, `set_bounds` and `add_constraint` come without a
length. Each function reads as many elements as the problem has variables or rows, and reads past
the end of a shorter array; here such a read has no result. Vectors are read through their `impl`,
to the length of the problem and not to their own.

Growing the capacity doubles an `int`, resizes the matrix and then the vector of the bounds. If the
second fails, the matrix stays the larger one, and the capacity says what the smaller of the two has
room for.

The function pointers and `print` are left out.
-/

namespace OvaLib

namespace Solver

namespace ProblemStorage

open Foundation Matrix.Storage

/-- The number of a `ProblemType`. -/
def typeNumber : ProblemType → ℤ
  | .max => 0
  | .min => 1

/-- What an `lp_problem_impl` holds, and where it is. -/
structure ProblemFields where
  impl : Option Pointer
  constraints : Option Pointer
  objective : Option Pointer
  bounds : Option Pointer
  type : ℤ
  variableCount : ℤ
  constraintCount : ℤ
  constraintCapacity : ℤ
  solution : Option Pointer
  objectiveValue : ℚ

/-- `lp_problem_impl_from_public`, with the fields that are then read. -/
def lpProblemImplFromPublic (problem : Option Pointer) : Effect ℚ (Option ProblemFields) :=
  match problem with
  | none => pure none
  | some problem => do
    let impl ← pointerAt (some problem) 0
    if impl = none then pure none
    else
      let constraints ← pointerAt impl 0
      let objective ← pointerAt impl 1
      let bounds ← pointerAt impl 2
      let type ← intAt impl 3
      let variableCount ← intAt impl 4
      let constraintCount ← intAt impl 5
      let constraintCapacity ← intAt impl 6
      let solution ← pointerAt impl 7
      let objectiveValue ← numberAt impl 8
      pure (some ⟨impl, constraints, objective, bounds, type, variableCount, constraintCount,
        constraintCapacity, solution, objectiveValue⟩)

/-- `solver_problem_free`. -/
def solverProblemFree (self : Option Pointer) : Effect ℚ Unit := do
  if self = none then return ()
  match ← lpProblemImplFromPublic self with
  | none => pure ()
  | some impl =>
    if impl.constraints ≠ none then matrixFreeMethod impl.constraints
    if impl.objective ≠ none then vectorFreeMethod impl.objective
    if impl.bounds ≠ none then vectorFreeMethod impl.bounds
    free impl.solution
    free impl.impl
    setCell self 0 (.pointer none)
  free self

/-- `create_problem`. -/
def createProblem (numVariables numConstraints : ℤ) : Effect ℚ (Option Pointer) := do
  if numVariables ≤ 0 then return none
  let numConstraints := if numConstraints < 1 then 1 else numConstraints
  let out ← calloc [.pointer none]
  if out = none then return none
  let impl ← calloc [.pointer none, .pointer none, .pointer none, .int 0, .int 0, .int 0, .int 0,
    .pointer none, .number 0]
  if impl = none then
    free out
    return none
  let constraints ← createMatrix numConstraints numVariables
  setCell impl 0 (.pointer constraints)
  let objective ← createVector numVariables
  setCell impl 1 (.pointer objective)
  let bounds ← createVector numConstraints
  setCell impl 2 (.pointer bounds)
  if constraints = none ∨ objective = none ∨ bounds = none then
    if constraints ≠ none then matrixFreeMethod constraints
    if objective ≠ none then vectorFreeMethod objective
    if bounds ≠ none then vectorFreeMethod bounds
    free impl
    free out
    return none
  setCell impl 3 (.int (typeNumber .max))
  setCell impl 4 (.int numVariables)
  setCell impl 5 (.int 0)
  setCell impl 6 (.int numConstraints)
  setCell impl 7 (.pointer none)
  setCell impl 8 (.number 0)
  setCell out 0 (.pointer impl)
  return out

/-- `solver_ensure_constraint_capacity`. -/
def solverEnsureConstraintCapacity (self : Option Pointer) (minCapacity : ℤ) : Effect ℚ ℤ := do
  match ← lpProblemImplFromPublic self with
  | none => return 0
  | some impl =>
    if minCapacity ≤ impl.constraintCapacity then return 0
    match doubleUntil 64 impl.constraintCapacity minCapacity with
    | none => undefined
    | some newCapacity =>
      match ← matrixImplFromMatrix impl.constraints with
      | none => return -1
      | some constraints =>
        if (← matrixResizeMethod impl.constraints newCapacity constraints.cols) ≠ 0 then return -1
        if (← vectorResizeMethod impl.bounds newCapacity) ≠ 0 then return -1
        setCell impl.impl 6 (.int newCapacity)
        return 0

/-- `solver_add_constraint`. -/
def solverAddConstraint (self coefficients : Option Pointer) (bound : ℚ) : Effect ℚ ℤ := do
  match ← lpProblemImplFromPublic self with
  | none => return -1
  | some impl =>
    let constraints ← matrixImplFromMatrix impl.constraints
    let bounds ← vectorImplFromVector impl.bounds
    if constraints.isNone ∨ bounds.isNone ∨ coefficients = none then return -1
    if (← solverEnsureConstraintCapacity self (impl.constraintCount + 1)) ≠ 0 then return -1
    let constraints ← matrixImplFromMatrix impl.constraints
    let bounds ← vectorImplFromVector impl.bounds
    match constraints, bounds with
    | some constraints, some bounds =>
      let row := impl.constraintCount.toNat
      forRange constraints.cols.toNat (fun i _ => do
        constraints.setEntry row i (← numberAt coefficients i)) ()
      setCell bounds.data row (.number bound)
      setCell impl.impl 5 (.int (impl.constraintCount + 1))
      return 0
    | _, _ => undefined

/-- `solver_set_objective`. -/
def solverSetObjective (self coefficients : Option Pointer) (type : ProblemType) :
    Effect ℚ ℤ := do
  match ← lpProblemImplFromPublic self with
  | none => return -1
  | some impl =>
    match ← vectorImplFromVector impl.objective with
    | none => return -1
    | some objective =>
      if coefficients = none then return -1
      forRange objective.size.toNat (fun i _ => do
        setCell objective.data i (.number (← numberAt coefficients i))) ()
      setCell impl.impl 3 (.int (typeNumber type))
      return 0

/-- `solver_set_bounds`. -/
def solverSetBounds (self bounds : Option Pointer) : Effect ℚ ℤ := do
  match ← lpProblemImplFromPublic self with
  | none => return -1
  | some impl =>
    match ← vectorImplFromVector impl.bounds with
    | none => return -1
    | some boundsImpl =>
      if bounds = none then return -1
      forRange impl.constraintCount.toNat (fun i _ => do
        setCell boundsImpl.data i (.number (← numberAt bounds i))) ()
      return 0

/-- `solver_is_feasible`; once a row has failed, the loop does nothing. -/
def solverIsFeasible (self solution : Option Pointer) : Effect ℚ ℤ := do
  match ← lpProblemImplFromPublic self with
  | none => return 0
  | some impl =>
    let constraints ← matrixImplFromMatrix impl.constraints
    let bounds ← vectorImplFromVector impl.bounds
    let solution ← vectorImplFromVector solution
    match constraints, bounds, solution with
    | some constraints, some bounds, some solution =>
      let feasible ← forRange impl.constraintCount.toNat (fun i feasible => do
        if feasible then
          let sum ← forRange constraints.cols.toNat (fun j sum => do
            let a ← constraints.entry i j
            let x ← numberAt solution.data j
            pure (sum + a * x)) 0
          let bound ← numberAt bounds.data i
          pure (decide (sum ≤ bound))
        else pure false) true
      return if feasible then 1 else 0
    | _, _, _ => return 0

/-- `solver_improves_objective`. -/
def solverImprovesObjective (self solution : Option Pointer) (oldValue : ℚ) (index : ℤ) :
    Effect ℚ ℤ := do
  match ← lpProblemImplFromPublic self with
  | none => return 0
  | some impl =>
    let objective ← vectorImplFromVector impl.objective
    let solution ← vectorImplFromVector solution
    match objective, solution with
    | some objective, some solution =>
      let (newObj, oldObj) ← forRange solution.size.toNat (fun i objs => do
        let c ← numberAt objective.data i
        let x ← numberAt solution.data i
        pure (objs.1 + c * x, objs.2 + c * if (i : ℤ) = index then oldValue else x)) (0, 0)
      return if impl.type = typeNumber .max then
        if newObj > oldObj then 1 else 0
      else if newObj < oldObj then 1 else 0
    | _, _ => return 0

/-- `solver_variable_count`. -/
def solverVariableCount (self : Option Pointer) : Effect ℚ ℤ := do
  match ← lpProblemImplFromPublic self with
  | none => return 0
  | some impl => return impl.variableCount

/-- `solver_constraint_count`. -/
def solverConstraintCount (self : Option Pointer) : Effect ℚ ℤ := do
  match ← lpProblemImplFromPublic self with
  | none => return 0
  | some impl => return impl.constraintCount

/-- `solver_problem_type`. -/
def solverProblemType (self : Option Pointer) : Effect ℚ ℤ := do
  match ← lpProblemImplFromPublic self with
  | none => return typeNumber .max
  | some impl => return impl.type

/-- `solver_solution_value`. -/
def solverSolutionValue (self : Option Pointer) (index : ℤ) : Effect ℚ ℚ := do
  match ← lpProblemImplFromPublic self with
  | none => return 0
  | some impl =>
    if impl.solution = none ∨ index < 0 ∨ index ≥ impl.variableCount then return 0
    numberAt impl.solution index.toNat

/-- `solver_objective_value`. -/
def solverObjectiveValue (self : Option Pointer) : Effect ℚ ℚ := do
  match ← lpProblemImplFromPublic self with
  | none => return 0
  | some impl => return impl.objectiveValue

/-! ## Copies

A new problem is created with room for two rows more than there are, and the rows are added one by
one. -/

/-- The common part of `clone_problem` and `clone_with_lower_bound`, and of their namesakes in
branch and cut: `offset` is what is computed from the copied objective, and `adjust` makes the
bounds of the copy, from the bound of a row and the coefficient of a variable in it. -/
def copyProblem {β : Type} (src : Option Pointer) (offset : Option Pointer → Effect ℚ β)
    (adjust : MatrixFields → VectorFields → ℕ → Effect ℚ ℚ) :
    Effect ℚ (Option (Option Pointer × β)) := do
  match ← lpProblemImplFromPublic src with
  | none => return none
  | some si =>
    let sc ← matrixImplFromMatrix si.constraints
    let so ← vectorImplFromVector si.objective
    let sb ← vectorImplFromVector si.bounds
    match sc, so, sb with
    | some sc, some so, some sb =>
      let dst ← createProblem si.variableCount
        (if si.constraintCount > 0 then si.constraintCount + 2 else 2)
      if dst = none then return none
      let objBuf ← calloc (List.replicate si.variableCount.toNat .raw)
      if objBuf = none then
        solverProblemFree dst
        return none
      forRange so.size.toNat (fun i _ => do
        setCell objBuf i (.number (← numberAt so.data i))) ()
      let _ ← solverSetObjective dst objBuf (if si.type = typeNumber .max then .max else .min)
      let objOffset ← offset objBuf
      free objBuf
      let rowBuf ← calloc (List.replicate sc.cols.toNat .raw)
      if rowBuf = none then
        solverProblemFree dst
        return none
      forRange si.constraintCount.toNat (fun r _ => do
        forRange sc.cols.toNat (fun c _ => do
          setCell rowBuf c (.number (← sc.entry r c))) ()
        let _ ← solverAddConstraint dst rowBuf (← adjust sc sb r)
        pure ()) ()
      free rowBuf
      return some (dst, objOffset)
    | _, _, _ => return none

/-- `clone_problem` and `bc_clone_problem`. -/
def cloneProblem (src : Option Pointer) : Effect ℚ (Option (Option Pointer × Unit)) :=
  copyProblem src (fun _ => pure ()) fun _ sb r => numberAt sb.data r

/-- `clone_with_lower_bound` and `bc_clone_with_lower_bound`, with what they put in
`*obj_offset`. -/
def cloneWithLowerBound (src : Option Pointer) (varIdx : ℕ) (lb : ℚ) :
    Effect ℚ (Option (Option Pointer × ℚ)) :=
  copyProblem src
    (fun objBuf => do
      let c ← numberAt objBuf varIdx
      pure (c * lb))
    fun sc sb r => do
      let bound ← numberAt sb.data r
      let a ← sc.entry r varIdx
      pure (bound - a * lb)

end ProblemStorage

end Solver

end OvaLib
