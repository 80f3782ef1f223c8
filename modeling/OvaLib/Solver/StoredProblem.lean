import Mathlib.Data.Multiset.OrderedMonoid
import OvaLib.Matrix.StoredMatrix
import OvaLib.Matrix.StoredVector
import OvaLib.Solver.ProblemStorage

/-!
# The linear problems on the heap

A problem on the heap owns a matrix, two vectors and two structs, and a solution once a solver has
left one. The matrix may have more rows than there is room for bounds: that is what is left when
only one of the two could grow, and no call can tell.

## The layers

`ProblemRep` says which blocks a problem has and how many of each kind, and has as its fields what
is true of every problem in memory: the columns of the matrix are the variables, the rows that are
used fit in both the matrix and the bounds. `Represents` couples it to a problem on paper, which
knows nothing of capacities or addresses. A rule about a function of `solver.c` takes a problem in
memory to another one and says which problem on paper it represents.

## Failure

A function that cannot have the memory it asks for leaves the problem on paper as it was. In memory
it may be another one, with more rows in the matrix, so the rules say that a problem is represented
afterwards and not that the heap is unchanged. A copy that fails half-way gives back all that was
made for it; and one that is made has every row, as it is created with room for them.

## What a rule takes

The rules are in continuation form: a rule for a call has a hypothesis for each way the call can
end, and each says what is held then. The object of a problem stays where it is, while its `impl`,
its matrix and its bounds are reached from there, so the callers of these rules know a problem by
its object alone and get a new `ProblemRep` after each call that writes.

Arrays of the caller need only be long enough for what the function reads. The functions do not know
how long they are, and a shorter one would be read beyond its end.

## Main results

* `runs_createProblem`, `runs_solverProblemFree` — a problem comes and goes
* `runs_solverAddConstraint` — a row is added, or the problem is as it was
* `runs_copyProblem` — a copy with other bounds, or nothing; no row is lost
-/

namespace OvaLib

namespace Solver

namespace ProblemStorage

open Foundation Matrix.Storage

variable {ρ : Type} {sure : Prop} {s F : Multiset (ℕ × List (Cell ℚ))}

/-! ## A problem on the heap -/

/-- A problem, with what a solver has left in it: nothing yet, or a solution and its value. The
value can be asked for before any solver has run, and is 0 then. -/
structure SolvedProblem where
  problem : LpProblem
  solution : Option (ℕ → ℚ)
  objectiveValue : ℚ

/-- A problem that no solver has seen. -/
def SolvedProblem.new (P : LpProblem) : SolvedProblem := ⟨P, none, 0⟩

/-- A problem on the heap: where its blocks are, and what they hold. The three proofs are what no
call of the library breaks: a column for each variable, no more rows than bounds, and no more bounds
than rows in the matrix. -/
structure ProblemRep where
  object : ℕ
  impl : ℕ
  constraints : MatrixRep ℚ
  objective : VectorRep ℚ
  bounds : VectorRep ℚ
  type : ProblemType
  constraintCount : ℕ
  solution : Option (ℕ × (ℕ → ℚ))
  objectiveValue : ℚ
  cols_eq : constraints.cols = objective.size
  count_le : constraintCount ≤ bounds.size
  /-- The matrix may have grown alone. -/
  capacity_le : bounds.size ≤ constraints.rows

namespace ProblemRep

/-- The pointer to the solution. -/
def solutionPointer (p : ProblemRep) : Option Pointer := p.solution.bind fun x => start x.1

/-- The block of the solution. -/
def solutionBlocks (p : ProblemRep) : Multiset (ℕ × List (Cell ℚ)) :=
  p.solution.elim 0 fun x => pointsTo x.1 (numbers p.objective.size x.2)

/-- The `impl`. -/
def implCells (p : ProblemRep) : List (Cell ℚ) :=
  [.pointer (start p.constraints.object), .pointer (start p.objective.object),
    .pointer (start p.bounds.object), .int (typeNumber p.type), .int p.objective.size,
    .int p.constraintCount, .int p.bounds.size, .pointer p.solutionPointer,
    .number p.objectiveValue]

/-- What `lp_problem_impl_from_public` reads. -/
def fields (p : ProblemRep) : ProblemFields where
  impl := start p.impl
  constraints := start p.constraints.object
  objective := start p.objective.object
  bounds := start p.bounds.object
  type := typeNumber p.type
  variableCount := p.objective.size
  constraintCount := p.constraintCount
  constraintCapacity := p.bounds.size
  solution := p.solutionPointer
  objectiveValue := p.objectiveValue

/-- The blocks of a problem but for those of the matrix and of the bounds. -/
def header (p : ProblemRep) : Multiset (ℕ × List (Cell ℚ)) :=
  p.objective.blocks + (pointsTo p.impl p.implCells +
    (pointsTo p.object [.pointer (start p.impl)] + p.solutionBlocks))

/-- The blocks of a problem. -/
def blocks (p : ProblemRep) : Multiset (ℕ × List (Cell ℚ)) :=
  p.constraints.blocks + (p.bounds.blocks + p.header)

variable {p : ProblemRep}

theorem constraints_le : p.constraints.blocks ≤ p.blocks := Multiset.le_add_right _ _

theorem bounds_le : p.bounds.blocks ≤ p.blocks :=
  (Multiset.le_add_right _ _).trans (Multiset.le_add_left _ _)

theorem objective_le : p.objective.blocks ≤ p.blocks :=
  (Multiset.le_add_right _ _).trans ((Multiset.le_add_left _ _).trans (Multiset.le_add_left _ _))

theorem impl_le : pointsTo p.impl p.implCells ≤ p.blocks :=
  (Multiset.le_add_right _ _).trans ((Multiset.le_add_left _ _).trans
    ((Multiset.le_add_left _ _).trans (Multiset.le_add_left _ _)))

theorem object_le : pointsTo p.object [.pointer (start p.impl)] ≤ p.blocks :=
  (Multiset.le_add_right _ _).trans ((Multiset.le_add_left _ _).trans
    ((Multiset.le_add_left _ _).trans ((Multiset.le_add_left _ _).trans
      (Multiset.le_add_left _ _))))

theorem solution_le {b : ℕ} {f : ℕ → ℚ} (h : p.solution = some (b, f)) :
    pointsTo b (numbers p.objective.size f) ≤ p.blocks := by
  have hblocks : p.solutionBlocks = pointsTo b (numbers p.objective.size f) := by
    rw [solutionBlocks, h]
    rfl
  rw [← hblocks]
  exact (Multiset.le_add_left _ _).trans ((Multiset.le_add_left _ _).trans
    ((Multiset.le_add_left _ _).trans ((Multiset.le_add_left _ _).trans
      (Multiset.le_add_left _ _))))

theorem runs_impl (hp : p.blocks ≤ s)
    {Q : Option ProblemFields → Multiset (ℕ × List (Cell ℚ)) → Prop} (hQ : Q (some p.fields) s) :
    Runs sure (lpProblemImplFromPublic (start p.object)) s Q := by
  have himpl := impl_le.trans hp
  refine runs_bind (runs_pointerAt (object_le.trans hp) rfl ?_)
  rw [if_neg (start_ne_none _)]
  refine runs_bind (runs_pointerAt himpl rfl ?_)
  refine runs_bind (runs_pointerAt himpl rfl ?_)
  refine runs_bind (runs_pointerAt himpl rfl ?_)
  refine runs_bind (runs_intAt himpl rfl ?_)
  refine runs_bind (runs_intAt himpl rfl ?_)
  refine runs_bind (runs_intAt himpl rfl ?_)
  refine runs_bind (runs_intAt himpl rfl ?_)
  refine runs_bind (runs_pointerAt himpl rfl ?_)
  exact runs_bind (runs_numberAt (p := ⟨p.impl, 0⟩) himpl rfl (runs_pure hQ))

/-- The problem in memory is the problem: what is beyond its rows does not matter. -/
structure Represents (p : ProblemRep) (S : SolvedProblem) : Prop where
  variableCount : S.problem.variableCount = p.objective.size
  constraintCount : S.problem.constraintCount = p.constraintCount
  type : S.problem.type = p.type
  constraints : ∀ i < p.constraintCount, ∀ j < p.objective.size,
    p.constraints.entries i j = S.problem.constraints i j
  objective : ∀ j < p.objective.size, p.objective.entries j = S.problem.objective j
  bounds : ∀ i < p.constraintCount, p.bounds.entries i = S.problem.bounds i
  /-- The solution that a solver has left, if any. -/
  solution : p.solution = none ∧ S.solution = none ∨ ∃ b f g, p.solution = some (b, f) ∧
    S.solution = some g ∧ ∀ j < p.objective.size, f j = g j
  objectiveValue : S.objectiveValue = p.objectiveValue

end ProblemRep

/-! ## Creation -/

/-- **A problem is freed**, with its solution. Every pointer it has is followed, so a solution that
a solver has left is given back too. -/
theorem runs_solverProblemFree {p : ProblemRep} (hs : s = p.blocks + F)
    {Q : Unit → Multiset (ℕ × List (Cell ℚ)) → Prop} (hQ : Q () F) :
    Runs sure (solverProblemFree (start p.object)) s Q := by
  subst hs
  have hle : p.blocks ≤ p.blocks + F := Multiset.le_add_right _ _
  rw [solverProblemFree, if_neg (start_ne_none _)]
  refine runs_bind (ProblemRep.runs_impl hle ?_)
  have hconstraints : p.fields.constraints ≠ none := start_ne_none _
  have hobjective : p.fields.objective ≠ none := start_ne_none _
  have hbounds : p.fields.bounds ≠ none := start_ne_none _
  dsimp only
  rw [if_pos hconstraints, if_pos hobjective, if_pos hbounds, ProblemRep.blocks, ProblemRep.header,
    add_assoc, add_assoc, add_assoc, add_assoc, add_assoc]
  refine runs_bind (runs_matrixFreeMethod rfl ?_)
  refine runs_bind (runs_vectorFreeMethod (add_left_comm _ _ _) ?_)
  refine runs_bind (runs_vectorFreeMethod rfl ?_)
  have hsolution : Runs sure (free p.fields.solution)
      (pointsTo p.impl p.implCells + (pointsTo p.object [.pointer (start p.impl)] +
        (p.solutionBlocks + F))) fun _ s' => s' = pointsTo p.impl p.implCells +
          (pointsTo p.object [.pointer (start p.impl)] + F) := by
    dsimp only [ProblemRep.fields]
    rw [ProblemRep.solutionPointer, ProblemRep.solutionBlocks]
    rcases p.solution with _ | ⟨b, f⟩
    · exact runs_pure (by rw [Option.elim_none, zero_add])
    · exact runs_freeStart (add_third_comm _ _ _ _) rfl
  refine runs_bind (hsolution.mono ?_)
  rintro ⟨⟩ _ rfl
  refine runs_bind (runs_freeStart rfl ?_)
  refine runs_bind (runs_setField rfl (by simp) ?_)
  exact runs_freeStart rfl hQ

/-- The pointer to a matrix that may be there. -/
def matrixPointer (m : Option (MatrixRep ℚ)) : Option Pointer := m.bind fun m => start m.object

/-- The blocks of a matrix that may be there. -/
def matrixBlocks (m : Option (MatrixRep ℚ)) : Multiset (ℕ × List (Cell ℚ)) :=
  m.elim 0 MatrixRep.blocks

/-- The pointer to a vector that may be there. -/
def vectorPointer (v : Option (VectorRep ℚ)) : Option Pointer := v.bind fun v => start v.object

/-- The blocks of a vector that may be there. -/
def vectorBlocks (v : Option (VectorRep ℚ)) : Multiset (ℕ × List (Cell ℚ)) :=
  v.elim 0 VectorRep.blocks

theorem runs_freeMatrix {m : Option (MatrixRep ℚ)} (hs : s = matrixBlocks m + F)
    {k : Unit → Effect ℚ ρ} {Q : ρ → Multiset (ℕ × List (Cell ℚ)) → Prop}
    (hk : Runs sure (k ()) F Q) :
    Runs sure (if matrixPointer m ≠ none then do
      let r ← matrixFreeMethod (matrixPointer m)
      k r
    else k ()) s Q := by
  subst hs
  cases m with
  | none =>
    rw [matrixBlocks, Option.elim_none, zero_add]
    exact hk
  | some m => exact runs_bind (runs_matrixFreeMethod rfl hk)

theorem runs_freeVector {v : Option (VectorRep ℚ)} (hs : s = vectorBlocks v + F)
    {k : Unit → Effect ℚ ρ} {Q : ρ → Multiset (ℕ × List (Cell ℚ)) → Prop}
    (hk : Runs sure (k ()) F Q) :
    Runs sure (if vectorPointer v ≠ none then do
      let r ← vectorFreeMethod (vectorPointer v)
      k r
    else k ()) s Q := by
  subst hs
  cases v with
  | none =>
    rw [vectorBlocks, Option.elim_none, zero_add]
    exact hk
  | some v => exact runs_bind (runs_vectorFreeMethod rfl hk)

/-- **A problem is created**, or what was allocated for it is freed. It fails for a number of
variables that is not positive, and otherwise only for want of memory; the frame is the same either
way. -/
theorem runs_createProblem {numVariables numConstraints : ℤ}
    {Q : Option Pointer → Multiset (ℕ × List (Cell ℚ)) → Prop}
    (hnone : (0 < numVariables → ¬ sure) → Q none s)
    (hsome : ∀ p : ProblemRep, p.Represents (.new (Solver.createProblem numVariables.toNat)) →
      numConstraints ≤ p.bounds.size → Q (start p.object) (p.blocks + s)) :
    Runs sure (ProblemStorage.createProblem numVariables numConstraints) s Q := by
  rw [ProblemStorage.createProblem]
  split
  · next hdim => exact runs_pure (hnone fun h => by omega)
  next hdim =>
  have hfail : ¬ sure → Q none s := fun h => hnone fun _ => h
  obtain ⟨rows, hrows, hrows'⟩ : ∃ rows : ℕ, (if numConstraints < 1 then 1 else numConstraints) =
      (rows : ℤ) ∧ numConstraints ≤ rows ∧ 0 < rows := by
    refine ⟨(if numConstraints < 1 then 1 else numConstraints).toNat, ?_⟩
    split <;> omega
  rw [hrows]
  refine runs_bind (runs_calloc (fun h => runs_pure (hfail h)) fun object => ?_)
  rw [if_neg (start_ne_none _)]
  refine runs_bind (runs_calloc (fun h => ?_) fun impl => ?_)
  · exact runs_bind (runs_freeStart rfl (runs_pure (hfail h)))
  rw [if_neg (start_ne_none _)]
  -- the matrix, the objective and the bounds may each be there or not
  have hmatrix : ∀ s, Runs sure (Matrix.Storage.createMatrix (rows : ℤ) numVariables) s fun q s' =>
      ∃ m : Option (MatrixRep ℚ), q = matrixPointer m ∧ s' = matrixBlocks m + s ∧
        (m = none → ¬ sure) ∧ ∀ m', m = some m' →
          m'.rows = rows ∧ (m'.cols : ℤ) = numVariables ∧ m'.entries = Matrix.zeroBlock := by
    intro s
    refine runs_createMatrix (fun h => ⟨none, rfl, (zero_add s).symm, fun _ => ?_, fun m' h' => ?_⟩)
      fun m hr hc hzero => ⟨some m, rfl, rfl, fun h => (by cases h), fun m' h' => ?_⟩
    · exact h (by omega) (by omega)
    · cases h'
    · cases h'
      exact ⟨Int.natCast_inj.mp hr, hc, hzero⟩
  have hvector : ∀ (n : ℤ) s, 0 < n → Runs sure (Matrix.Storage.createVector n) s fun q s' =>
      ∃ v : Option (VectorRep ℚ), q = vectorPointer v ∧ s' = vectorBlocks v + s ∧
        (v = none → ¬ sure) ∧ ∀ v', v = some v' → (v'.size : ℤ) = n ∧ v'.entries = 0 := by
    intro n s hn
    refine runs_createVector
      (fun h => ⟨none, rfl, (zero_add s).symm, fun _ => h hn, fun v' h' => ?_⟩)
      fun v hsize hzero => ⟨some v, rfl, rfl, fun h => (by cases h), fun v' h' => ?_⟩
    · cases h'
    · cases h'
      exact ⟨hsize, hzero⟩
  refine runs_bind ((hmatrix _).mono ?_)
  rintro _ _ ⟨m, rfl, rfl, hmnone, hm⟩
  refine runs_bind (runs_setField (add_left_comm _ _ _) (by simp) ?_)
  refine runs_bind ((hvector _ _ (by omega)).mono ?_)
  rintro _ _ ⟨o, rfl, rfl, honone, ho⟩
  refine runs_bind (runs_setField (add_left_comm _ _ _) (by simp) ?_)
  refine runs_bind ((hvector _ _ (by omega)).mono ?_)
  rintro _ _ ⟨b, rfl, rfl, hbnone, hb⟩
  refine runs_bind (runs_setField (add_left_comm _ _ _) (by simp) ?_)
  by_cases hany : matrixPointer m = none ∨ vectorPointer o = none ∨ vectorPointer b = none
  · rw [if_pos hany]
    have hsure : ¬ sure := by
      rcases hany with h | h | h
      · cases m with
        | none => exact hmnone rfl
        | some m => exact absurd h (start_ne_none _)
      · cases o with
        | none => exact honone rfl
        | some o => exact absurd h (start_ne_none _)
      · cases b with
        | none => exact hbnone rfl
        | some b => exact absurd h (start_ne_none _)
    refine runs_freeMatrix (add_fourth_comm _ _ _ _ _) ?_
    refine runs_freeVector (add_third_comm _ _ _ _) ?_
    refine runs_freeVector (add_left_comm _ _ _) ?_
    refine runs_bind (runs_freeStart rfl ?_)
    exact runs_bind (runs_freeStart rfl (runs_pure (hfail hsure)))
  · rw [if_neg hany]
    rcases m with _ | m
    · exact absurd (.inl rfl) hany
    rcases o with _ | o
    · exact absurd (.inr (.inl rfl)) hany
    rcases b with _ | b
    · exact absurd (.inr (.inr rfl)) hany
    obtain ⟨hmrows, hmcols, -⟩ := hm m rfl
    obtain ⟨hosize, hozero⟩ := ho o rfl
    obtain ⟨hbsize, -⟩ := hb b rfl
    refine runs_bind (runs_setField rfl (by simp) ?_)
    refine runs_bind (runs_setField rfl (by simp) ?_)
    refine runs_bind (runs_setField rfl (by simp) ?_)
    refine runs_bind (runs_setField rfl (by simp) ?_)
    refine runs_bind (runs_setField rfl (by simp) ?_)
    refine runs_bind (runs_setField rfl (by simp) ?_)
    refine runs_bind (runs_setField ((congrArg (_ + ·) (add_fourth_comm _ _ _ _ _)).trans
      (add_left_comm _ _ _)) (by simp) (runs_pure ?_))
    let p : ProblemRep := ⟨object, impl, m, o, b, .max, 0, none, 0, by omega, Nat.zero_le _,
      by omega⟩
    have hrep : p.Represents (.new (Solver.createProblem numVariables.toNat)) := by
      refine ⟨?_, rfl, rfl, fun i hi => absurd hi (Nat.not_lt_zero i), fun j _ => ?_,
        fun i hi => absurd hi (Nat.not_lt_zero i), .inl ⟨rfl, rfl⟩, rfl⟩
      · rw [← hosize]
        exact Int.toNat_natCast _
      · exact congrFun hozero j
    have hbounds : b.size = rows := Int.natCast_inj.mp hbsize
    have hp := hsome p hrep (hbounds ▸ hrows'.1)
    convert hp using 1
    simp only [p, ProblemRep.blocks, ProblemRep.header, ProblemRep.implCells,
      ProblemRep.solutionBlocks, ProblemRep.solutionPointer, vectorBlocks, matrixBlocks,
      vectorPointer, matrixPointer,
      Option.elim_none, Option.elim_some, Option.bind_none, Option.bind_some, List.set_cons_zero,
      List.set_cons_succ, add_zero, ← hosize, ← hbsize, Nat.cast_zero]
    ac_rfl

/-! ## Rows

A row is written behind the last one, once there is room. -/

namespace ProblemRep

/-- The same problem, with room for more rows. -/
structure Grown (p p' : ProblemRep) : Prop where
  object : p'.object = p.object
  impl : p'.impl = p.impl
  constraintsObject : p'.constraints.object = p.constraints.object
  boundsObject : p'.bounds.object = p.bounds.object
  objective : p'.objective = p.objective
  type : p'.type = p.type
  constraintCount : p'.constraintCount = p.constraintCount
  solution : p'.solution = p.solution
  objectiveValue : p'.objectiveValue = p.objectiveValue
  size_le : p.bounds.size ≤ p'.bounds.size
  constraints : ∀ i < p.constraintCount, ∀ j < p.objective.size,
    p'.constraints.entries i j = p.constraints.entries i j
  bounds : ∀ i < p.constraintCount, p'.bounds.entries i = p.bounds.entries i

variable {p p' : ProblemRep} {S : SolvedProblem}

theorem Grown.refl (p : ProblemRep) : p.Grown p :=
  ⟨rfl, rfl, rfl, rfl, rfl, rfl, rfl, rfl, rfl, Nat.le_refl _, fun _ _ _ _ => rfl, fun _ _ => rfl⟩

theorem Represents.grown (h : p.Represents S) (hp : p.Grown p') : p'.Represents S := by
  constructor
  · rw [h.variableCount, hp.objective]
  · rw [h.constraintCount, hp.constraintCount]
  · rw [h.type, hp.type]
  · intro i hi j hj
    rw [hp.constraintCount] at hi
    rw [hp.objective] at hj
    rw [hp.constraints i hi j hj, h.constraints i hi j hj]
  · intro j hj
    rw [hp.objective] at hj ⊢
    exact h.objective j hj
  · intro i hi
    rw [hp.constraintCount] at hi
    rw [hp.bounds i hi, h.bounds i hi]
  · rw [hp.solution, hp.objective]
    exact h.solution
  · rw [h.objectiveValue, hp.objectiveValue]

end ProblemRep

/-- **Room is made for one more row**, or the problem is as it was. First the matrix is resized and
then the bounds; if the second fails, the matrix stays as it is, larger than needed, and the next
call asks for the same size again. The bound keeps the doubled capacity in the range of `int`. -/
theorem runs_solverEnsureConstraintCapacity {p : ProblemRep} (hs : s = p.blocks + F)
    (hcount : p.constraintCount < 2 ^ 30) {Q : ℤ → Multiset (ℕ × List (Cell ℚ)) → Prop}
    (hbad : p.bounds.size ≤ p.constraintCount → ¬ sure → ∀ p', p.Grown p' →
      Q (-1) (p'.blocks + F))
    (hdone : ∀ p', p.Grown p' → p.constraintCount < p'.bounds.size → Q 0 (p'.blocks + F)) :
    Runs sure (solverEnsureConstraintCapacity (start p.object) ((p.constraintCount : ℤ) + 1)) s
      Q := by
  subst hs
  refine runs_bind (ProblemRep.runs_impl (Multiset.le_add_right _ _) ?_)
  dsimp only [ProblemRep.fields]
  split
  · next hroom => exact runs_pure (hdone p (.refl p) (by omega))
  next hfull =>
  have hsize : p.bounds.size = p.constraintCount := by
    have := p.count_le
    omega
  have hdouble : doubleUntil 64 (p.bounds.size : ℤ) ((p.constraintCount : ℤ) + 1) =
      some ((2 * p.bounds.size : ℕ) : ℤ) := by
    have hpos := p.bounds.size_pos
    rw [doubleUntil, if_pos (by omega), doubleUntil, int32_eq (by omega) (by omega),
      if_neg (by omega), mul_comm]
    rfl
  rw [hdouble]
  dsimp only
  refine runs_bind (MatrixRep.runs_matrixImpl (ProblemRep.constraints_le.trans
    (Multiset.le_add_right _ _)) ?_)
  dsimp only [MatrixRep.fields]
  rw [ProblemRep.blocks, ProblemRep.header, add_assoc, add_assoc, add_assoc, add_assoc, add_assoc]
  have hrows := p.capacity_le
  have hcols := p.cols_eq
  have hpos := p.bounds.size_pos
  have hwidth := p.constraints.cols_pos
  -- the matrix grows first, and stays so when the bounds then cannot
  refine runs_bind (runs_matrixResizeMethod rfl (fun h => ?_) fun m hobject hr hc hentries => ?_)
  · rw [if_pos (by omega)]
    refine runs_pure ?_
    have hp := hbad (by omega) (h (by omega) (by omega)) p (.refl p)
    rwa [ProblemRep.blocks, ProblemRep.header, add_assoc, add_assoc, add_assoc, add_assoc,
      add_assoc] at hp
  have hrows' : m.rows = 2 * p.bounds.size := Int.natCast_inj.mp hr
  have hcols' : m.cols = p.constraints.cols := Int.natCast_inj.mp hc
  have hkept : ∀ i < p.constraintCount, ∀ j < p.objective.size,
      m.entries i j = p.constraints.entries i j := by
    intro i hi j hj
    rw [hentries i (by omega) j (by omega), if_pos ⟨by omega, by omega⟩]
  rw [if_neg (by omega)]
  refine runs_bind (runs_vectorResizeMethod (add_left_comm _ _ _) (fun h => ?_)
    fun b hobject' hsize' hentries' => ?_)
  · rw [if_pos (by omega)]
    refine runs_pure ?_
    let p' : ProblemRep := { p with
      constraints := m
      cols_eq := hcols'.trans p.cols_eq
      capacity_le := by omega }
    have hp := hbad (by omega) (h (by omega)) p'
      ⟨rfl, rfl, hobject, rfl, rfl, rfl, rfl, rfl, rfl, Nat.le_refl _, hkept, fun _ _ => rfl⟩
    convert hp using 1
    simp only [p', ProblemRep.blocks, ProblemRep.header, ProblemRep.implCells,
      ProblemRep.solutionBlocks, ProblemRep.solutionPointer, hobject]
    ac_rfl
  · rw [if_neg (by omega)]
    have hsize'' : b.size = 2 * p.bounds.size := Int.natCast_inj.mp hsize'
    refine runs_bind (runs_setField (add_fourth_comm _ _ _ _ _) ?_ (runs_pure ?_))
    · simp [ProblemRep.implCells]
    have hle : p.bounds.size ≤ b.size := by omega
    have hlt : p.constraintCount < b.size := by omega
    let p' : ProblemRep := { p with
      constraints := m
      bounds := b
      cols_eq := hcols'.trans p.cols_eq
      count_le := by omega
      capacity_le := by omega }
    have hp := hdone p'
      ⟨rfl, rfl, hobject, hobject', rfl, rfl, rfl, rfl, rfl, hle, hkept, fun i hi => ?_⟩ hlt
    · convert hp using 1
      simp only [p', ProblemRep.blocks, ProblemRep.header, ProblemRep.implCells,
        ProblemRep.solutionBlocks, ProblemRep.solutionPointer, List.set_cons_succ,
        List.set_cons_zero, hobject, hobject',
        hsize'']
      ac_rfl
    · rw [hentries' i (by omega), if_pos (by omega)]

/-- The elements of an array can be copied. -/
theorem copies_numbers {b n : ℕ} {a : ℕ → ℚ} (ha : pointsTo b (numbers n a) ≤ s) :
    Copies sure s (start b) n a := by
  intro i hi Q hQ
  refine runs_cellAt (p := ⟨b, 0⟩) ha ?_ hQ
  rw [Nat.zero_add]
  exact numbers_getElem? hi

/-- The elements of an array can be read. -/
theorem reads_numbers {b n : ℕ} {a : ℕ → ℚ} (ha : pointsTo b (numbers n a) ≤ s) :
    Reads sure s (start b) n a := (copies_numbers ha).reads

/-- An entry is assigned, whatever the others are. -/
theorem runs_setPut {m : MatrixRep ℚ} {i j : ℕ} (hi : i < m.rows) (hj : j < m.cols)
    (e : Matrix.Block ℚ) {v : ℚ} {Q : Unit → Multiset (ℕ × List (Cell ℚ)) → Prop}
    (hQ : Q () ((m.put (e.set i j v)).blocks + F)) :
    Runs sure (m.fields.setEntry i j v) ((m.put e).blocks + F) Q :=
  MatrixRep.runs_setEntry (m := m.put e) hi hj hQ

/-- An entry is read, whatever the others are. -/
theorem runs_entryPut {m : MatrixRep ℚ} {i j : ℕ} (hi : i < m.rows) (hj : j < m.cols)
    (e : Matrix.Block ℚ) {Q : ℚ → Multiset (ℕ × List (Cell ℚ)) → Prop}
    (hQ : Q (e i j) ((m.put e).blocks + F)) :
    Runs sure (m.fields.entry i j) ((m.put e).blocks + F) Q :=
  MatrixRep.runs_entry (m := m.put e) (Multiset.le_add_right _ _) hi hj hQ

/-- A row of a matrix is filled from left to right. The body of the loop is a parameter, because
three functions of the source fill rows from different places. -/
theorem runs_fillRow {m : MatrixRep ℚ} {n : ℕ} (hs : s = m.blocks + F) (i : ℕ) (src : ℕ → ℚ)
    {body : ℕ → Unit → Effect ℚ Unit}
    (hbody : ∀ j < n, Runs sure (body j ()) ((m.put (m.entries.copyRow i src j)).blocks + F)
      fun _ s' => s' = (m.put ((m.entries.copyRow i src j).set i j (src j))).blocks + F)
    {Q : Unit → Multiset (ℕ × List (Cell ℚ)) → Prop}
    (hQ : Q () ((m.put (m.entries.copyRow i src n)).blocks + F)) :
    Runs sure (forRange n body ()) s Q := by
  subst hs
  refine runs_forRange
    (fun j _ s => s = (m.put (m.entries.copyRow i src j)).blocks + F) ?_ ?_ ?_
  · rintro j ⟨⟩ _ hj rfl
    rw [copyRow_succ]
    exact hbody j hj
  · rw [copyRow_zero]
    rfl
  · rintro ⟨⟩ _ rfl
    exact hQ

/-- **A row is added**; only when there is no room can it be refused, and then the problem is as it
was. What it is refused for is always memory, so with allocations succeeding every row is added. -/
theorem runs_solverAddConstraint {p : ProblemRep} (hs : s = p.blocks + F) {S : SolvedProblem}
    (hS : p.Represents S) (hcount : p.constraintCount < 2 ^ 30) {b n : ℕ} {a : ℕ → ℚ}
    (ha : pointsTo b (numbers n a) ≤ F) (hn : p.objective.size ≤ n) {bound : ℚ}
    {Q : ℤ → Multiset (ℕ × List (Cell ℚ)) → Prop}
    (hbad : p.bounds.size ≤ p.constraintCount → ¬ sure → ∀ p' : ProblemRep,
      p'.object = p.object → p'.Represents S → Q (-1) (p'.blocks + F))
    (hdone : ∀ p' : ProblemRep, p'.object = p.object →
      p'.Represents { S with problem := S.problem.addConstraint a bound } →
      p.bounds.size ≤ p'.bounds.size → Q 0 (p'.blocks + F)) :
    Runs sure (solverAddConstraint (start p.object) (start b) bound) s Q := by
  subst hs
  have hle : p.blocks ≤ p.blocks + F := Multiset.le_add_right _ _
  refine runs_bind (ProblemRep.runs_impl hle ?_)
  refine runs_bind (MatrixRep.runs_matrixImpl (ProblemRep.constraints_le.trans hle) ?_)
  refine runs_bind (VectorRep.runs_vectorImpl (ProblemRep.bounds_le.trans hle) ?_)
  rw [if_neg (by simp)]
  refine runs_bind (runs_solverEnsureConstraintCapacity rfl hcount ?_ ?_)
  · intro hfull hsure p' hp'
    rw [if_pos (by omega)]
    exact runs_pure (hbad hfull hsure p' hp'.object (hS.grown hp'))
  intro p' hp' hroom
  rw [if_neg (by omega)]
  have hle' : p'.blocks ≤ p'.blocks + F := Multiset.le_add_right _ _
  have hmatrix : p.fields.constraints = start p'.constraints.object :=
    congrArg start hp'.constraintsObject.symm
  have hvector : p.fields.bounds = start p'.bounds.object := congrArg start hp'.boundsObject.symm
  have himpl : p.fields.impl = start p'.impl := congrArg start hp'.impl.symm
  rw [hmatrix, hvector, himpl]
  refine runs_bind (MatrixRep.runs_matrixImpl (ProblemRep.constraints_le.trans hle') ?_)
  refine runs_bind (VectorRep.runs_vectorImpl (ProblemRep.bounds_le.trans hle') ?_)
  dsimp only
  have hcols : p'.constraints.fields.cols.toNat = p'.constraints.cols := Int.toNat_natCast _
  have hrow : p.fields.constraintCount.toNat = p.constraintCount := Int.toNat_natCast _
  have hcap := p'.capacity_le
  have hwidth := p'.cols_eq
  rw [hcols, hrow, ProblemRep.blocks, add_assoc, add_assoc]
  refine runs_bind (runs_fillRow rfl p.constraintCount a (fun j hj => ?_) ?_)
  · rw [hp'.objective] at hwidth
    refine runs_bind (reads_numbers (ha.trans ?_) j (by omega) _ ?_)
    · exact le_add_left (le_add_left (Multiset.le_add_left _ _))
    · have hfree : p.constraintCount < p'.constraints.rows := by omega
      exact runs_setPut hfree hj _ rfl
  refine runs_bind (VectorRep.runs_setElement hroom (add_left_comm _ _ _) ?_)
  rw [ProblemRep.header, add_assoc, add_assoc]
  refine runs_bind (runs_setField (add_fourth_comm _ _ _ _ _) ?_ (runs_pure ?_))
  · simp [ProblemRep.implCells]
  let p'' : ProblemRep := { p' with
    constraints := p'.constraints.put
      (p'.constraints.entries.copyRow p.constraintCount a p'.constraints.cols)
    bounds := p'.bounds.put (Function.update p'.bounds.entries p.constraintCount bound)
    constraintCount := p.constraintCount + 1
    count_le := hroom }
  have hp := hdone p'' hp'.object ?_ hp'.size_le
  · convert hp using 1
    simp only [p'', ProblemRep.blocks, ProblemRep.header, ProblemRep.implCells,
      ProblemRep.solutionBlocks, ProblemRep.solutionPointer, MatrixRep.put, VectorRep.put,
      List.set_cons_succ, List.set_cons_zero]
    ac_rfl
  have h := hS.grown hp'
  have hcountS : S.problem.constraintCount = p.constraintCount := hS.constraintCount
  refine ⟨h.variableCount, congrArg (· + 1) hcountS, h.type, fun i hi j hj => ?_, h.objective,
    fun i hi => ?_, h.solution, h.objectiveValue⟩
  · show (if i = p.constraintCount ∧ j < _ then a j else _) =
      Function.update S.problem.constraints S.problem.constraintCount a i j
    have hj' : j < p'.constraints.cols := hwidth ▸ hj
    rw [hcountS]
    by_cases hlast : i = p.constraintCount
    · rw [if_pos ⟨hlast, hj'⟩, hlast, Function.update_self]
    · have hi' : i < p'.constraintCount := by
        rw [hp'.constraintCount]
        exact Nat.lt_of_le_of_ne (Nat.lt_succ_iff.mp hi) hlast
      rw [if_neg fun hand => hlast hand.1, Function.update_of_ne hlast]
      exact h.constraints i hi' j hj
  · show Function.update p'.bounds.entries p.constraintCount bound i =
      Function.update S.problem.bounds S.problem.constraintCount bound i
    rw [hcountS]
    by_cases hlast : i = p.constraintCount
    · rw [hlast, Function.update_self, Function.update_self]
    · rw [Function.update_of_ne hlast, Function.update_of_ne hlast]
      refine h.bounds i ?_
      rw [hp'.constraintCount]
      exact Nat.lt_of_le_of_ne (Nat.lt_succ_iff.mp hi) hlast

/-! ## The objective and the bounds -/

/-- The elements of an array of the caller are copied to a vector. -/
theorem runs_fillVector {v : VectorRep ℚ} (hs : s = v.blocks + F) {b n m : ℕ} {a : ℕ → ℚ}
    (ha : pointsTo b (numbers n a) ≤ F) (hmn : m ≤ n) (hm : m ≤ v.size)
    {Q : Unit → Multiset (ℕ × List (Cell ℚ)) → Prop}
    (hQ : Q () ((v.put (splice a v.entries m)).blocks + F)) :
    Runs sure (forRange m (fun i _ => do
      setCell v.fields.data i (.number (← numberAt (start b) i))) ()) s Q := by
  subst hs
  refine runs_forRange (fun i _ s => s = (v.put (splice a v.entries i)).blocks + F) ?_
    (VectorRep.put_splice_zero v a) ?_
  · rintro i ⟨⟩ _ hi rfl
    refine runs_bind (reads_numbers (ha.trans (Multiset.le_add_left _ _)) i
      (Nat.lt_of_lt_of_le hi hmn) _ ?_)
    exact VectorRep.writes_data v a i (Nat.lt_of_lt_of_le hi hm) _ rfl
  · rintro ⟨⟩ _ rfl
    exact hQ

/-- **The objective is set.** As many coefficients are read as the problem has variables, and the
array of the caller is not kept. -/
theorem runs_solverSetObjective {p : ProblemRep} (hs : s = p.blocks + F) {S : SolvedProblem}
    (hS : p.Represents S) {b n : ℕ} {a : ℕ → ℚ} (ha : pointsTo b (numbers n a) ≤ F)
    (hn : p.objective.size ≤ n) {type : ProblemType}
    {Q : ℤ → Multiset (ℕ × List (Cell ℚ)) → Prop}
    (hdone : ∀ p' : ProblemRep, p'.object = p.object →
      p'.Represents { S with problem := S.problem.setObjective a type } →
      p.bounds.size ≤ p'.bounds.size → Q 0 (p'.blocks + F)) :
    Runs sure (solverSetObjective (start p.object) (start b) type) s Q := by
  subst hs
  have hle : p.blocks ≤ p.blocks + F := Multiset.le_add_right _ _
  refine runs_bind (ProblemRep.runs_impl hle ?_)
  refine runs_bind (VectorRep.runs_vectorImpl (ProblemRep.objective_le.trans hle) ?_)
  dsimp only
  rw [if_neg (start_ne_none _)]
  have hsize : p.objective.fields.size.toNat = p.objective.size := Int.toNat_natCast _
  rw [hsize, ProblemRep.blocks, ProblemRep.header, add_assoc, add_assoc, add_assoc, add_assoc,
    add_assoc]
  refine runs_bind (runs_fillVector (add_third_comm _ _ _ _) (ha.trans ?_) hn (Nat.le_refl _) ?_)
  · exact le_add_left (le_add_left (le_add_left (le_add_left (Multiset.le_add_left _ _))))
  refine runs_bind (runs_setField (add_fourth_comm _ _ _ _ _) ?_ (runs_pure ?_))
  · simp [ProblemRep.implCells]
  let p' : ProblemRep := { p with
    objective := p.objective.put (splice a p.objective.entries p.objective.size)
    type := type }
  have hp := hdone p' rfl ?_ (Nat.le_refl _)
  · convert hp using 1
    simp only [p', ProblemRep.blocks, ProblemRep.header, ProblemRep.implCells,
      ProblemRep.solutionBlocks, ProblemRep.solutionPointer, VectorRep.put,
      List.set_cons_succ, List.set_cons_zero]
    ac_rfl
  exact ⟨hS.variableCount, hS.constraintCount, rfl, hS.constraints, fun j hj => if_pos hj,
    hS.bounds, hS.solution, hS.objectiveValue⟩

/-- **The bounds are set**, those of the rows that the problem has at this time. -/
theorem runs_solverSetBounds {p : ProblemRep} (hs : s = p.blocks + F) {S : SolvedProblem}
    (hS : p.Represents S) {b n : ℕ} {a : ℕ → ℚ} (ha : pointsTo b (numbers n a) ≤ F)
    (hn : p.constraintCount ≤ n) {Q : ℤ → Multiset (ℕ × List (Cell ℚ)) → Prop}
    (hdone : ∀ p' : ProblemRep, p'.object = p.object →
      p'.Represents { S with problem := S.problem.setBounds a } → Q 0 (p'.blocks + F)) :
    Runs sure (solverSetBounds (start p.object) (start b)) s Q := by
  subst hs
  have hle : p.blocks ≤ p.blocks + F := Multiset.le_add_right _ _
  refine runs_bind (ProblemRep.runs_impl hle ?_)
  refine runs_bind (VectorRep.runs_vectorImpl (ProblemRep.bounds_le.trans hle) ?_)
  dsimp only
  rw [if_neg (start_ne_none _)]
  have hcount : p.fields.constraintCount.toNat = p.constraintCount := Int.toNat_natCast _
  rw [hcount, ProblemRep.blocks, add_assoc, add_assoc]
  refine runs_bind (runs_fillVector (add_left_comm _ _ _) (ha.trans ?_) hn p.count_le
    (runs_pure ?_))
  · exact le_add_left (Multiset.le_add_left _ _)
  let p' : ProblemRep := { p with
    bounds := p.bounds.put (splice a p.bounds.entries p.constraintCount) }
  have hp := hdone p' rfl ?_
  · convert hp using 1
    simp only [p', ProblemRep.blocks, ProblemRep.header, ProblemRep.implCells,
      ProblemRep.solutionBlocks, ProblemRep.solutionPointer, VectorRep.put]
    ac_rfl
  refine ⟨hS.variableCount, hS.constraintCount, hS.type, hS.constraints, hS.objective,
    fun i hi => ?_, hS.solution, hS.objectiveValue⟩
  have hi' : i < S.problem.constraintCount := hS.constraintCount ▸ hi
  exact (if_pos hi).trans (if_pos hi').symm

/-! ## Points -/

/-- **Whether a point satisfies every row.** The test is exact here: the source compares without a
tolerance, unlike the test that the search makes at its nodes. -/
theorem runs_solverIsFeasible {p : ProblemRep} (hp : p.blocks ≤ s) {S : SolvedProblem}
    (hS : p.Represents S) {v : VectorRep ℚ} (hv : v.blocks ≤ s) (hsize : p.objective.size ≤ v.size)
    {Q : ℤ → Multiset (ℕ × List (Cell ℚ)) → Prop}
    (hQ : Q (if ∀ i < S.problem.constraintCount, S.problem.lhs i v.entries ≤ S.problem.bounds i
      then 1 else 0) s) :
    Runs sure (solverIsFeasible (start p.object) (start v.object)) s Q := by
  refine runs_bind (ProblemRep.runs_impl hp ?_)
  refine runs_bind (MatrixRep.runs_matrixImpl (ProblemRep.constraints_le.trans hp) ?_)
  refine runs_bind (VectorRep.runs_vectorImpl (ProblemRep.bounds_le.trans hp) ?_)
  refine runs_bind (VectorRep.runs_vectorImpl hv ?_)
  dsimp only
  have hcount : p.fields.constraintCount.toNat = p.constraintCount := Int.toNat_natCast _
  have hcols : p.constraints.fields.cols.toNat = p.objective.size := by
    rw [← p.cols_eq]
    exact Int.toNat_natCast _
  rw [hcount, hcols]
  have hcount_le := p.count_le
  have hcap := p.capacity_le
  have hwidth := p.cols_eq
  refine runs_bind (runs_forRange (fun i feasible s' => s = s' ∧ feasible =
    decide (∀ k < i, S.problem.lhs k v.entries ≤ S.problem.bounds k)) ?_ ⟨rfl, ?_⟩ ?_)
  · rintro i feasible _ hi ⟨rfl, rfl⟩
    split
    · next hbefore =>
      refine runs_bind (runs_forRange (fun j sum s' => s = s' ∧
        sum = ∑ k ∈ Finset.range j, S.problem.constraints i k * v.entries k) ?_ ⟨rfl, ?_⟩ ?_)
      · rintro j sum _ hj ⟨rfl, rfl⟩
        refine runs_bind (MatrixRep.runs_entry (ProblemRep.constraints_le.trans hp) (by omega)
          (by omega) ?_)
        refine runs_bind ((VectorRep.copies_data hv).reads j (by omega) _ (runs_pure ⟨rfl, ?_⟩))
        rw [Finset.sum_range_succ, hS.constraints i hi j hj]
      · rw [Finset.sum_range_zero]
      · rintro sum _ ⟨rfl, rfl⟩
        refine runs_bind ((VectorRep.copies_data (ProblemRep.bounds_le.trans hp)).reads i (by omega)
          _ (runs_pure ⟨rfl, ?_⟩))
        have hrow : S.problem.lhs i v.entries =
            ∑ k ∈ Finset.range p.objective.size, S.problem.constraints i k * v.entries k := by
          rw [LpProblem.lhs, hS.variableCount]
        rw [decide_eq_decide, Nat.forall_lt_succ_right, hrow, hS.bounds i hi]
        exact ⟨fun h => ⟨of_decide_eq_true hbefore, h⟩, fun h => h.2⟩
    · next hbefore =>
      refine runs_pure ⟨rfl, (decide_eq_false fun h => hbefore ?_).symm⟩
      exact decide_eq_true fun k hk => h k (Nat.lt_succ_of_lt hk)
  · exact (decide_eq_true fun k hk => absurd hk (Nat.not_lt_zero k)).symm
  · rintro feasible _ ⟨rfl, rfl⟩
    refine runs_pure ?_
    simpa only [decide_eq_true_eq, hS.constraintCount] using hQ

/-- One point is better than another. -/
def Better (P : LpProblem) (x y : ℕ → ℚ) : Prop :=
  if P.type = .max then P.objectiveAt y < P.objectiveAt x else P.objectiveAt x < P.objectiveAt y

instance (P : LpProblem) (x y : ℕ → ℚ) : Decidable (Better P x y) :=
  inferInstanceAs (Decidable (if P.type = .max then P.objectiveAt y < P.objectiveAt x
    else P.objectiveAt x < P.objectiveAt y))

/-- A point with another value for one variable. -/
def withValue (x : ℕ → ℚ) (index : ℤ) (value : ℚ) (i : ℕ) : ℚ :=
  if (i : ℤ) = index then value else x i

/-- **Whether a point is better than it was** before one variable was changed. The old point is not
built: both values are summed in one loop, in which the old value stands in at its index. -/
theorem runs_solverImprovesObjective {p : ProblemRep} (hp : p.blocks ≤ s) {S : SolvedProblem}
    (hS : p.Represents S) {v : VectorRep ℚ} (hv : v.blocks ≤ s) (hsize : v.size = p.objective.size)
    {oldValue : ℚ} {index : ℤ} {Q : ℤ → Multiset (ℕ × List (Cell ℚ)) → Prop}
    (hQ : Q (if Better S.problem v.entries (withValue v.entries index oldValue) then 1 else 0) s) :
    Runs sure (solverImprovesObjective (start p.object) (start v.object) oldValue index) s Q := by
  refine runs_bind (ProblemRep.runs_impl hp ?_)
  refine runs_bind (VectorRep.runs_vectorImpl (ProblemRep.objective_le.trans hp) ?_)
  refine runs_bind (VectorRep.runs_vectorImpl hv ?_)
  dsimp only
  have hvsize : v.fields.size.toNat = p.objective.size := by
    rw [← hsize]
    exact Int.toNat_natCast _
  rw [hvsize]
  refine runs_bind (runs_forRange (fun i objs s' => s = s' ∧
    objs = (∑ k ∈ Finset.range i, S.problem.objective k * v.entries k,
      ∑ k ∈ Finset.range i, S.problem.objective k * withValue v.entries index oldValue k))
    ?_ ⟨rfl, rfl⟩ ?_)
  · rintro i objs _ hi ⟨rfl, rfl⟩
    refine runs_bind ((VectorRep.copies_data (ProblemRep.objective_le.trans hp)).reads i hi _ ?_)
    refine runs_bind ((VectorRep.copies_data hv).reads i (hsize ▸ hi) _ (runs_pure ⟨rfl, ?_⟩))
    rw [Finset.sum_range_succ, Finset.sum_range_succ, hS.objective i hi, withValue]
  · rintro objs _ ⟨rfl, rfl⟩
    refine runs_pure ?_
    have htype : p.fields.type = typeNumber .max ↔ S.problem.type = .max := by
      rw [hS.type]
      show typeNumber p.type = _ ↔ _
      cases p.type <;> simp [typeNumber]
    by_cases hmax : S.problem.type = .max
    · rw [if_pos (htype.mpr hmax)]
      simpa only [Better, LpProblem.objectiveAt, hS.variableCount, if_pos hmax, gt_iff_lt] using hQ
    · rw [if_neg fun h => hmax (htype.mp h)]
      simpa only [Better, LpProblem.objectiveAt, hS.variableCount, if_neg hmax] using hQ

/-! ## Reading -/

section

variable {p : ProblemRep} {S : SolvedProblem}

theorem runs_solverVariableCount (hp : p.blocks ≤ s) (hS : p.Represents S)
    {Q : ℤ → Multiset (ℕ × List (Cell ℚ)) → Prop} (hQ : Q S.problem.variableCount s) :
    Runs sure (solverVariableCount (start p.object)) s Q := by
  rw [hS.variableCount] at hQ
  exact runs_bind (ProblemRep.runs_impl hp (runs_pure hQ))

theorem runs_solverConstraintCount (hp : p.blocks ≤ s) (hS : p.Represents S)
    {Q : ℤ → Multiset (ℕ × List (Cell ℚ)) → Prop} (hQ : Q S.problem.constraintCount s) :
    Runs sure (solverConstraintCount (start p.object)) s Q := by
  rw [hS.constraintCount] at hQ
  exact runs_bind (ProblemRep.runs_impl hp (runs_pure hQ))

theorem runs_solverProblemType (hp : p.blocks ≤ s) (hS : p.Represents S)
    {Q : ℤ → Multiset (ℕ × List (Cell ℚ)) → Prop} (hQ : Q (typeNumber S.problem.type) s) :
    Runs sure (solverProblemType (start p.object)) s Q := by
  rw [hS.type] at hQ
  exact runs_bind (ProblemRep.runs_impl hp (runs_pure hQ))

theorem runs_solverObjectiveValue (hp : p.blocks ≤ s) (hS : p.Represents S)
    {Q : ℚ → Multiset (ℕ × List (Cell ℚ)) → Prop} (hQ : Q S.objectiveValue s) :
    Runs sure (solverObjectiveValue (start p.object)) s Q := by
  rw [hS.objectiveValue] at hQ
  exact runs_bind (ProblemRep.runs_impl hp (runs_pure hQ))

/-- The value of a variable in the solution; 0 where there is none. -/
theorem runs_solverSolutionValue (hp : p.blocks ≤ s) (hS : p.Represents S) {index : ℤ}
    {Q : ℚ → Multiset (ℕ × List (Cell ℚ)) → Prop}
    (hQ : Q (if 0 ≤ index ∧ index < S.problem.variableCount then
      S.solution.elim 0 fun x => x index.toNat else 0) s) :
    Runs sure (solverSolutionValue (start p.object) index) s Q := by
  refine runs_bind (ProblemRep.runs_impl hp ?_)
  dsimp only [ProblemRep.fields]
  rw [hS.variableCount] at hQ
  rcases hS.solution with ⟨hnone, hnone'⟩ | ⟨b, f, g, hf, hg, hfg⟩
  · rw [ProblemRep.solutionPointer, hnone, Option.bind_none, if_pos (.inl rfl)]
    rw [hnone', Option.elim_none, ite_self] at hQ
    exact runs_pure hQ
  · rw [ProblemRep.solutionPointer, hf, Option.bind_some]
    by_cases hindex : 0 ≤ index ∧ index < p.objective.size
    · rw [if_neg (by simp; omega)]
      rw [if_pos hindex, hg, Option.elim_some, ← hfg _ (by omega)] at hQ
      have hb : pointsTo b (numbers p.objective.size f) ≤ s := by
        refine le_trans ?_ hp
        rw [ProblemRep.blocks, ProblemRep.header, ProblemRep.solutionBlocks, hf]
        exact le_add_left (le_add_left (le_add_left (le_add_left (Multiset.le_add_left _ _))))
      exact reads_numbers hb index.toNat (by omega) Q hQ
    · rw [if_pos (by omega)]
      rw [if_neg hindex] at hQ
      exact runs_pure hQ

end

/-! ## Copies

What `clone_problem` and its namesakes have in common is a copy of the first rows with other bounds.
-/

/-- The next cell of a buffer is written. -/
theorem numbers_append_set {cells : List (Cell ℚ)} {i : ℕ} (hi : i < cells.length) (f : ℕ → ℚ) :
    (numbers i f ++ cells.drop i).set i (.number (f i)) =
      numbers (i + 1) f ++ cells.drop (i + 1) := by
  rw [List.drop_eq_getElem_cons hi, List.set_append_right _ _ (by rw [length_numbers]),
    length_numbers, Nat.sub_self, List.set_cons_zero, numbers, numbers, List.range_succ,
    List.map_append, List.append_assoc]
  rfl

/-- A buffer is filled, whatever was in it; the turns of the loop only read before they assign. -/
theorem runs_fillBuffer {b n : ℕ} {cells : List (Cell ℚ)} (hs : s = pointsTo b cells + F)
    (hn : cells.length = n) (f : ℕ → ℚ) {body : ℕ → Unit → Effect ℚ Unit}
    (hbody : ∀ i < n, ∀ s, F ≤ s → ∀ Q : Unit → Multiset (ℕ × List (Cell ℚ)) → Prop,
      Runs sure (setCell (start b) i (.number (f i))) s Q → Runs sure (body i ()) s Q)
    {Q : Unit → Multiset (ℕ × List (Cell ℚ)) → Prop} (hQ : Q () (pointsTo b (numbers n f) + F)) :
    Runs sure (forRange n body ()) s Q := by
  subst hs hn
  refine runs_forRange (fun i _ s => s = pointsTo b (numbers i f ++ cells.drop i) + F) ?_ rfl ?_
  · rintro i ⟨⟩ _ hi rfl
    refine hbody i hi _ (Multiset.le_add_left _ _) _ (runs_setField rfl ?_ ?_)
    · rw [List.length_append, length_numbers, List.length_drop]
      omega
    · rw [numbers_append_set hi]
  · rintro ⟨⟩ _ rfl
    rwa [List.drop_length, List.append_nil]

/-- `memcpy` of a whole buffer. -/
theorem runs_copyBuffer {b t n : ℕ} {cells : List (Cell ℚ)} (hs : s = pointsTo b cells + F)
    (hn : cells.length = n) {f : ℕ → ℚ} (ht : pointsTo t (numbers n f) ≤ F)
    {Q : Unit → Multiset (ℕ × List (Cell ℚ)) → Prop} (hQ : Q () (pointsTo b (numbers n f) + F)) :
    Runs sure (memcpy (start b) (start t) n) s Q := by
  refine runs_fillBuffer hs hn f (fun i hi s hs Q hQ => ?_) hQ
  exact runs_bind (copies_numbers (ht.trans hs) i hi _ hQ)

/-- The first rows of a problem, with other bounds. -/
def firstRows (P : LpProblem) (bounds : ℕ → ℚ) (rows : ℕ) : LpProblem :=
  { P with bounds := bounds, constraintCount := rows }

theorem firstRows_succ (P : LpProblem) (bounds : ℕ → ℚ) (r : ℕ) :
    (firstRows P bounds r).addConstraint (P.constraints r) (bounds r) =
      firstRows P bounds (r + 1) := by
  simp only [firstRows, LpProblem.addConstraint, Function.update_eq_self]

/-- The rows are copied through one buffer. -/
theorem runs_copyRows {p d : ProblemRep} {S : SolvedProblem} (hS : p.Represents S)
    (hp : p.blocks ≤ F) (hcount : p.constraintCount < 2 ^ 30) {bounds : ℕ → ℚ}
    {adjust : MatrixFields → VectorFields → ℕ → Effect ℚ ℚ}
    (hadjust : ∀ r < p.constraintCount, ∀ s, p.blocks ≤ s →
      ∀ Q : ℚ → Multiset (ℕ × List (Cell ℚ)) → Prop, Q (bounds r) s →
        Runs sure (adjust p.constraints.fields p.bounds.fields r) s Q)
    (hd : d.Represents (.new (firstRows S.problem bounds 0)))
    (hroom : p.constraintCount ≤ d.bounds.size) {b : ℕ} {cells : List (Cell ℚ)}
    (hcells : cells.length = p.objective.size) (hs : s = pointsTo b cells + (d.blocks + F))
    {Q : Unit → Multiset (ℕ × List (Cell ℚ)) → Prop}
    (hQ : ∀ d' : ProblemRep, d'.object = d.object →
      d'.Represents (.new (firstRows S.problem bounds p.constraintCount)) →
        ∀ cells : List (Cell ℚ), Q () (pointsTo b cells + (d'.blocks + F))) :
    Runs sure (forRange p.constraintCount (fun r _ => do
      forRange p.objective.size (fun c _ => do
        setCell (start b) c (.number (← p.constraints.fields.entry r c))) ()
      let _ ← solverAddConstraint (start d.object) (start b)
        (← adjust p.constraints.fields p.bounds.fields r)
      pure ()) ()) s Q := by
  subst hs
  have hcap := p.capacity_le
  have hle := p.count_le
  have hwidth := p.cols_eq
  refine runs_forRange (fun r _ s => ∃ (d' : ProblemRep) (cells : List (Cell ℚ)),
    d'.object = d.object ∧ d'.Represents (.new (firstRows S.problem bounds r)) ∧
    p.constraintCount ≤ d'.bounds.size ∧ cells.length = p.objective.size ∧
    s = pointsTo b cells + (d'.blocks + F)) ?_ ⟨d, cells, rfl, hd, hroom, hcells, rfl⟩ ?_
  · rintro r ⟨⟩ _ hr ⟨d', cells', hobject, hrep, hroom', hcells', rfl⟩
    refine runs_bind (runs_fillBuffer rfl hcells' (S.problem.constraints r) ?_ ?_)
    · intro c hc s hs Q hQ
      refine runs_bind (MatrixRep.runs_entry (ProblemRep.constraints_le.trans (hp.trans
        ((Multiset.le_add_left _ _).trans hs))) (by omega) (by omega) ?_)
      rwa [hS.constraints r hr c hc]
    refine runs_bind (hadjust r hr _ ?_ _ ?_)
    · exact hp.trans (le_add_left (Multiset.le_add_left _ _))
    rw [← hobject]
    have hcountD : d'.constraintCount = r := hrep.constraintCount.symm
    have hwidthD : S.problem.variableCount = d'.objective.size := hrep.variableCount
    refine runs_bind (runs_solverAddConstraint (add_left_comm _ _ _) hrep (by omega)
      (Multiset.le_add_right _ _) ?_ ?_ ?_)
    · rw [← hwidthD, hS.variableCount]
    · exact fun hfull => absurd hfull (by omega)
    · intro d'' hobject'' hrep'' hsize
      have hnext : d''.Represents (.new ((firstRows S.problem bounds r).addConstraint
        (S.problem.constraints r) (bounds r))) := hrep''
      rw [firstRows_succ] at hnext
      refine runs_pure ⟨d'', _, hobject'', hnext, by omega, ?_, add_left_comm _ _ _⟩
      exact length_numbers _ _
  · rintro ⟨⟩ _ ⟨d', cells', hobject, hrep, -, -, rfl⟩
    exact hQ d' hobject hrep cells'

/-- **A copy of a problem**, with other bounds. There is none if memory is short, and then nothing
is left behind; no row is lost. -/
theorem runs_copyProblem {p : ProblemRep} (hp : p.blocks ≤ s) {S : SolvedProblem}
    (hS : p.Represents S) (hcount : p.constraintCount < 2 ^ 30) {β : Type}
    {offset : Option Pointer → Effect ℚ β} {c : β}
    (hoffset : ∀ b s, pointsTo b (numbers p.objective.size S.problem.objective) ≤ s →
      ∀ Q : β → Multiset (ℕ × List (Cell ℚ)) → Prop, Q c s → Runs sure (offset (start b)) s Q)
    {adjust : MatrixFields → VectorFields → ℕ → Effect ℚ ℚ} {bounds : ℕ → ℚ}
    (hadjust : ∀ r < p.constraintCount, ∀ s, p.blocks ≤ s →
      ∀ Q : ℚ → Multiset (ℕ × List (Cell ℚ)) → Prop, Q (bounds r) s →
        Runs sure (adjust p.constraints.fields p.bounds.fields r) s Q)
    {Q : Option (Option Pointer × β) → Multiset (ℕ × List (Cell ℚ)) → Prop}
    (hnone : ¬ sure → Q none s)
    (hsome : ∀ d : ProblemRep, d.Represents (.new { S.problem with bounds := bounds }) →
      Q (some (start d.object, c)) (d.blocks + s)) :
    Runs sure (copyProblem (start p.object) offset adjust) s Q := by
  refine runs_bind (ProblemRep.runs_impl hp ?_)
  refine runs_bind (MatrixRep.runs_matrixImpl (ProblemRep.constraints_le.trans hp) ?_)
  refine runs_bind (VectorRep.runs_vectorImpl (ProblemRep.objective_le.trans hp) ?_)
  refine runs_bind (VectorRep.runs_vectorImpl (ProblemRep.bounds_le.trans hp) ?_)
  dsimp only
  have hpos := p.objective.size_pos
  refine runs_bind (runs_createProblem (fun h => ?_) fun d hd hroom => ?_)
  · rw [if_pos rfl]
    exact runs_pure (hnone (h (Int.natCast_pos.mpr hpos)))
  rw [if_neg (start_ne_none _)]
  have hvariables : d.objective.size = p.objective.size := by
    rw [← hd.variableCount]
    exact Int.toNat_natCast _
  refine runs_bind (runs_calloc (fun h => ?_) fun b => ?_)
  · exact runs_bind (runs_solverProblemFree rfl (runs_pure (hnone h)))
  rw [if_neg (start_ne_none _)]
  have hobjSize : p.objective.fields.size.toNat = p.objective.size := Int.toNat_natCast _
  have hvars : p.fields.variableCount.toNat = p.objective.size := Int.toNat_natCast _
  have hrows : p.fields.constraintCount.toNat = p.constraintCount := Int.toNat_natCast _
  have hcols : p.constraints.fields.cols.toNat = p.objective.size := by
    rw [← p.cols_eq]
    exact Int.toNat_natCast _
  have htype : (if p.fields.type = typeNumber .max then ProblemType.max else .min) =
      S.problem.type := by
    rw [hS.type]
    show (if typeNumber p.type = _ then _ else _) = _
    cases p.type <;> rfl
  rw [hobjSize, hvars, hrows, hcols, htype]
  refine runs_bind (runs_fillBuffer rfl List.length_replicate S.problem.objective ?_ ?_)
  · intro i hi s' hs' Q hQ
    refine runs_bind ((VectorRep.copies_data (ProblemRep.objective_le.trans (hp.trans
      ((Multiset.le_add_left _ _).trans hs')))).reads i hi _ ?_)
    rwa [hS.objective i hi]
  refine runs_bind (runs_solverSetObjective (add_left_comm _ _ _) hd
    (Multiset.le_add_right _ _) (Nat.le_of_eq hvariables) fun d' hobject hd' hsize => ?_)
  refine runs_bind (hoffset b _ (le_add_left (Multiset.le_add_right _ _)) _ ?_)
  refine runs_bind (runs_freeStart (add_left_comm _ _ _) ?_)
  rw [← hobject]
  refine runs_bind (runs_calloc (fun h => ?_) fun b' => ?_)
  · rw [if_pos rfl]
    exact runs_bind (runs_solverProblemFree rfl (runs_pure (hnone h)))
  rw [if_neg (start_ne_none _)]
  have hd'' : d'.Represents (.new (firstRows S.problem bounds 0)) := by
    refine ⟨?_, hd'.constraintCount, hd'.type, fun i hi => ?_, hd'.objective, fun i hi => ?_,
      hd'.solution, hd'.objectiveValue⟩
    · rw [← hd'.variableCount]
      exact hS.variableCount.trans hvars.symm
    · exact absurd hi (by rw [← hd'.constraintCount]; exact Nat.not_lt_zero i)
    · exact absurd hi (by rw [← hd'.constraintCount]; exact Nat.not_lt_zero i)
  have hroom' : p.constraintCount ≤ d'.bounds.size := by
    have hcount' : p.fields.constraintCount = p.constraintCount := rfl
    have hask : (p.constraintCount : ℤ) ≤
        if p.fields.constraintCount > 0 then p.fields.constraintCount + 2 else 2 := by
      split <;> omega
    have := hask.trans hroom
    omega
  refine runs_bind (runs_copyRows hS hp hcount hadjust hd'' hroom' List.length_replicate rfl ?_)
  intro d'' hobject' hrep cells
  refine runs_bind (runs_freeStart rfl (runs_pure ?_))
  rw [← hobject']
  refine hsome d'' ?_
  rwa [← hS.constraintCount] at hrep

/-- **A clone.** -/
theorem runs_cloneProblem {p : ProblemRep} (hp : p.blocks ≤ s) {S : SolvedProblem}
    (hS : p.Represents S) (hcount : p.constraintCount < 2 ^ 30)
    {Q : Option (Option Pointer × Unit) → Multiset (ℕ × List (Cell ℚ)) → Prop}
    (hnone : ¬ sure → Q none s)
    (hsome : ∀ d : ProblemRep, d.Represents (.new S.problem.cloneProblem) →
      Q (some (start d.object, ())) (d.blocks + s)) :
    Runs sure (cloneProblem (start p.object)) s Q := by
  refine runs_copyProblem hp hS hcount ?_ ?_ hnone hsome
  · exact fun b s hb Q hQ => runs_pure hQ
  · intro r hr s hs Q hQ
    refine (VectorRep.copies_data (ProblemRep.bounds_le.trans hs)).reads r
      (Nat.lt_of_lt_of_le hr p.count_le) Q ?_
    rwa [hS.bounds r hr]

/-- **A clone with a lower bound substituted.** -/
theorem runs_cloneWithLowerBound {p : ProblemRep} (hp : p.blocks ≤ s) {S : SolvedProblem}
    (hS : p.Represents S) (hcount : p.constraintCount < 2 ^ 30) {varIdx : ℕ}
    (hvar : varIdx < S.problem.variableCount) {lb : ℚ}
    {Q : Option (Option Pointer × ℚ) → Multiset (ℕ × List (Cell ℚ)) → Prop}
    (hnone : ¬ sure → Q none s)
    (hsome : ∀ d : ProblemRep, d.Represents (.new (S.problem.cloneWithLowerBound varIdx lb).1) →
      Q (some (start d.object, (S.problem.cloneWithLowerBound varIdx lb).2)) (d.blocks + s)) :
    Runs sure (cloneWithLowerBound (start p.object) varIdx lb) s Q := by
  rw [hS.variableCount] at hvar
  refine runs_copyProblem hp hS hcount ?_ ?_ hnone hsome
  · exact fun b s hb Q hQ => runs_bind (reads_numbers hb varIdx hvar _ (runs_pure hQ))
  · intro r hr s hs Q hQ
    have hle := p.count_le
    have hcap := p.capacity_le
    have hwidth := p.cols_eq
    refine runs_bind ((VectorRep.copies_data (ProblemRep.bounds_le.trans hs)).reads r (by omega)
      _ ?_)
    refine runs_bind (MatrixRep.runs_entry (ProblemRep.constraints_le.trans hs) (by omega)
      (by omega) (runs_pure ?_))
    rwa [hS.bounds r hr, hS.constraints r hr varIdx hvar]

end ProblemStorage

end Solver

end OvaLib
