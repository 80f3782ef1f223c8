import OvaLib.Solver.StoredSearch

/-!
# A call of branch and bound

`branch_and_bound_solver` from the first allocation to the last `free`. The caller gets a matrix or
nothing; the problem gets a solution or stays as it was; all else that the search took is given
back.

## What the theorem says

It is about one call on a problem in memory, with any allocations failing. The call has a result, so
it touches only live memory. The heap afterwards has the blocks of the problem and of the matrix
that is handed out, and no others. The answer is the one of the functional search if no allocation
of the call fails. When some do, it may be another one, and the problem in memory is still the
problem that was given, with a solution or without.

Fuel that does not suffice in memory does not suffice on paper. The rows and the nodes together stay
below `2 ^ 30`, so that no capacity wraps around. Numbers are rational.

## Main results

* `branchAndBound_session` — the call on the heap and the call on paper
-/

namespace OvaLib

namespace Solver

namespace ProblemStorage

open Foundation Matrix.Storage

variable {sure : Prop} {s F : Multiset (ℕ × List (Cell ℚ))} {p d : ProblemRep} {S U : SolvedProblem}
  {fuel : ℕ} {paper : Option IntegerResult}

/-! ## The answer of a call -/

/-- The answer in memory is the answer on paper: the same status, and for an optimal one the same
solution, value and matrix, entry by entry. Without a solution the problem is as it was. -/
def Agrees (S S' : SolvedProblem) (status : Status) (m : Option (MatrixRep ℚ)) :
    IntegerResult → Prop
  | .optimal x value out _ => status = .optimal ∧ S'.objectiveValue = value ∧
    (∃ g, S'.solution = some g ∧ ∀ j < S.problem.variableCount, g j = x j) ∧
    ∃ M, m = some M ∧ M.rows = out.rows ∧ M.cols = out.cols ∧
      ∀ i < out.rows, ∀ j < out.cols, M.entries i j = out.data i j
  | .stopped stop => status = stop ∧ S' = S ∧ m = none

/-- What a call leaves: an answer, the problem and perhaps a matrix. If no allocation fails it is
the answer on paper. Without an outcome the fuel was too little, and then it is on paper as well. -/
inductive Answers (sure : Prop) (p : ProblemRep) (S : SolvedProblem)
    (F : Multiset (ℕ × List (Cell ℚ))) (paper : Option IntegerResult) :
    Option (Status × Option Pointer) → Multiset (ℕ × List (Cell ℚ)) → Prop
  | running (s : Multiset (ℕ × List (Cell ℚ))) : (sure → paper = none) →
    Answers sure p S F paper none s
  | answer (status : Status) (p' : ProblemRep) (S' : SolvedProblem) (m : Option (MatrixRep ℚ)) :
    p'.object = p.object → p'.Represents S' → S'.problem = S.problem →
    (sure → ∃ result, paper = some result ∧ Agrees S S' status m result) →
    Answers sure p S F paper (some (status, matrixPointer m)) (p'.blocks + (matrixBlocks m + F))

/-- The problem is as it was, and there is no matrix. -/
theorem answers_stopped (hS : p.Represents S) {status : Status}
    (h : sure → paper = some (.stopped status)) :
    Answers sure p S F paper (some (status, none)) (p.blocks + F) := by
  have hanswer : Answers sure p S F paper (some (status, matrixPointer none))
      (p.blocks + (matrixBlocks none + F)) :=
    .answer status p S none rfl hS rfl fun hsure => ⟨_, h hsure, rfl, rfl, rfl⟩
  rwa [matrixBlocks, Option.elim_none, zero_add] at hanswer

/-! ## The solution -/

/-- The problem with another value. -/
def ProblemRep.valued (p : ProblemRep) (value : ℚ) : ProblemRep :=
  { p with objectiveValue := value }

theorem runs_setValue (hs : s = p.blocks + F) {v : ℚ}
    {Q : Unit → Multiset (ℕ × List (Cell ℚ)) → Prop} (hQ : Q () ((p.valued v).blocks + F)) :
    Runs sure (setCell (start p.impl) 8 (.number v)) s Q := by
  subst hs
  rw [p.blocks_impl, add_assoc]
  refine runs_setField rfl (by simp [ProblemRep.implCells]) ?_
  rw [(p.valued v).blocks_impl, add_assoc] at hQ
  exact hQ

/-- The solution is overwritten. -/
theorem runs_copySolution {b t : ℕ} {f g : ℕ → ℚ} {v : ℚ}
    (hs : s = (p.solved b f v).blocks + F) (hg : pointsTo t (numbers p.objective.size g) ≤ F)
    {Q : Unit → Multiset (ℕ × List (Cell ℚ)) → Prop}
    (hQ : Q () ((p.solved b g v).blocks + F)) :
    Runs sure (memcpy (start b) (start t) p.objective.size) s Q := by
  subst hs
  rw [p.blocks_solved, add_assoc] at hQ ⊢
  exact runs_copyBuffer rfl (length_numbers _ _) (le_add_left hg) hQ

/-! ## The ways out

An answer comes from the root relaxation or from the search, and in either case is put into the
problem and into a matrix. -/

theorem ProblemRep.Represents.valued (hS : p.Represents S) (v : ℚ) :
    (p.valued v).Represents { S with objectiveValue := v } :=
  ⟨hS.variableCount, hS.constraintCount, hS.type, hS.constraints, hS.objective, hS.bounds,
    hS.solution, rfl⟩

/-- **The relaxation of the root is the answer.** If the array for the solution cannot be made, only
the value is put into the problem. The source answers `OPTIMAL` all the same. -/
theorem runs_acceptRoot (hS : p.Represents S) {ri : ProblemFields} {bs : ℕ} {x : ℕ → ℚ}
    (hsolution : ri.solution = start bs) (hs : s = p.blocks + F)
    (hx : pointsTo bs (numbers p.objective.size x) ≤ F)
    {Q : Unit → Multiset (ℕ × List (Cell ℚ)) → Prop}
    (hQ : ∀ (p' : ProblemRep) (S' : SolvedProblem), p'.object = p.object → p'.Represents S' →
      S'.problem = S.problem → S'.objectiveValue = ri.objectiveValue →
      (sure → S'.solution = some x) → Q () (p'.blocks + F)) :
    Runs sure (acceptRoot p.fields ri) s Q := by
  subst hs
  have hnum : p.fields.variableCount.toNat = p.objective.size := rfl
  have himpl : p.fields.impl = start p.impl := rfl
  rw [acceptRoot, hnum, himpl, hsolution]
  refine runs_bind (runs_solutionArray rfl (fun hsure => ?_) fun b f => ?_)
  · rw [if_neg (not_not.mpr rfl)]
    exact runs_setValue rfl (hQ (p.valued ri.objectiveValue) _ rfl (hS.valued _) rfl rfl
      fun h => absurd h hsure)
  · rw [if_pos (start_ne_none _)]
    refine runs_bind (runs_copySolution rfl hx ?_)
    exact runs_setValue (p := p.solved b x p.objectiveValue) rfl
      (hQ (p.solved b x ri.objectiveValue) _ rfl (hS.solved b (fun _ _ => rfl) _) rfl rfl
        fun _ => rfl)

/-- **The incumbent is the answer**, in the problem and in a matrix of one row. Without memory for
the solution the answer is `INFEASIBLE`; without memory for the matrix it is `OPTIMAL` and no
matrix. -/
theorem runs_acceptIncumbent (hS : p.Represents S) {b : ℕ} {f : ℕ → ℚ} {v : ℚ}
    (hs : s = pointsTo b (numbers p.objective.size f) + (p.blocks + F))
    (hpaper : sure → ∃ x source, paper = some (.optimal x v
      (summaryMatrix S.problem.variableCount x v) source) ∧ ∀ j < p.objective.size, f j = x j) :
    Runs sure (acceptIncumbent p.fields (start b) v) s fun r s' =>
      Answers sure p S F paper (some r) s' := by
  subst hs
  have hnum : p.fields.variableCount.toNat = p.objective.size := rfl
  have himpl : p.fields.impl = start p.impl := rfl
  have hvars := hS.variableCount
  rw [acceptIncumbent, hnum, himpl]
  refine runs_bind (runs_solutionArray (add_left_comm _ _ _) (fun hsure => ?_) fun t g => ?_)
  · rw [if_pos rfl]
    exact runs_bind (runs_freeStart (add_left_comm _ _ _) (runs_pure
      (answers_stopped hS fun h => absurd h hsure)))
  rw [if_neg (start_ne_none _)]
  refine runs_bind (runs_copySolution rfl (Multiset.le_add_right _ _) ?_)
  refine runs_bind (runs_setValue (p := p.solved t f p.objectiveValue) rfl ?_)
  refine runs_bind (runs_freeStart (add_left_comm _ _ _) ?_)
  have hsolved : (p.solved t f v).Represents ⟨S.problem, some f, v⟩ :=
    hS.solved t (fun _ _ => rfl) v
  refine runs_bind (runs_createMatrix (fun hsure => ?_) fun m hr hc hzero => ?_)
  · rw [if_pos rfl]
    have hanswer : Answers sure p S F paper (some (.optimal, matrixPointer none))
        ((p.solved t f v).blocks + (matrixBlocks none + F)) :=
      .answer .optimal _ _ none rfl hsolved rfl fun h => absurd h (hsure (by omega) (by omega))
    rw [matrixBlocks, Option.elim_none, zero_add] at hanswer
    exact runs_pure hanswer
  rw [if_neg (start_ne_none _)]
  refine runs_bind (MatrixRep.runs_matrixImpl (Multiset.le_add_right _ _) ?_)
  dsimp only
  have hrows : 0 < m.rows := by omega
  have hcols : m.cols = p.objective.size + 1 := by omega
  have hheld : ∀ G : Multiset (ℕ × List (Cell ℚ)), (p.solved t f v).blocks ≤
      G + ((p.solved t f v).blocks + F) :=
    fun G => le_add_left (Multiset.le_add_right _ _)
  refine runs_bind (runs_fillRow rfl 0 f (fun j hj => ?_) ?_)
  · refine runs_bind (reads_numbers (n := p.objective.size) (a := f) (b := t) ?_ j hj _ ?_)
    · exact (ProblemRep.solution_le (p := p.solved t f v) rfl).trans (hheld _)
    · exact runs_setPut hrows (by omega) _ rfl
  refine runs_bind (runs_numberAt (p := ⟨p.impl, 0⟩)
    ((ProblemRep.impl_le (p := p.solved t f v)).trans (hheld _)) rfl ?_)
  refine runs_bind (runs_setPut hrows (by omega) _ (runs_pure ?_))
  rw [add_left_comm]
  have hanswer : Answers sure p S F paper (some (.optimal, matrixPointer (some (m.put
      ((m.entries.copyRow 0 f p.objective.size).set 0 p.objective.size v)))))
      ((p.solved t f v).blocks + (matrixBlocks (some (m.put
        ((m.entries.copyRow 0 f p.objective.size).set 0 p.objective.size v))) + F)) := by
    refine .answer .optimal _ _ _ rfl hsolved rfl fun hsure => ?_
    obtain ⟨x, source, hanswer, hfx⟩ := hpaper hsure
    refine ⟨_, hanswer, rfl, rfl, ⟨f, rfl, fun j hj => hfx j (hvars ▸ hj)⟩, _, rfl, ?_, ?_, ?_⟩
    · show m.rows = 1
      omega
    · show m.cols = S.problem.variableCount + 1
      omega
    · intro i hi j hj
      obtain rfl : i = 0 := Nat.lt_one_iff.mp hi
      have hj' : j < S.problem.variableCount + 1 := hj
      show (m.entries.copyRow 0 f p.objective.size).set 0 p.objective.size v 0 j =
        if j < S.problem.variableCount then x j else v
      rw [Matrix.Block.set]
      by_cases hlast : j = p.objective.size
      · rw [if_pos ⟨rfl, hlast⟩, if_neg (by omega)]
      · rw [if_neg fun h => hlast h.2, copyRow_of_lt _ _ (by omega), if_pos (by omega)]
        exact hfx j (by omega)
  exact hanswer

/-! ## The call

The parts in the order of the source. -/

/-- The answer of the search on paper. -/
def searchAnswer (P : LpProblem) : Option Incumbent → Option IntegerResult
  | none => none
  | some inc =>
    if noIncumbent P.type inc.bestObj then some (.stopped .infeasible)
    else
      some (.optimal inc.bestSol inc.bestObj
        (summaryMatrix P.variableCount inc.bestSol inc.bestObj) (.incumbent inc.source))

/-- The search from the root on paper: what the call does once it is known that the relaxation of
the root is no solution. -/
def searchOnPaper (P : LpProblem) (fuel : ℕ) : Option IntegerResult :=
  searchAnswer P (Solver.bbSolve P fuel P.cloneProblem (fun _ => 0) 0
    ⟨initialBest P.type, fun _ => 0, 0, none⟩)

section

variable {P : LpProblem} {x : ℕ → ℚ} {v : ℚ} {T : Tableau}

theorem branchAndBound_none (h : Solver.simplexSolver fuel P.cloneProblem = none) :
    Solver.branchAndBoundSolver fuel P = none := by
  rw [Solver.branchAndBoundSolver, branchSolver, h]

theorem branchAndBound_stopped {result : SimplexResult}
    (h : Solver.simplexSolver fuel P.cloneProblem = some result)
    (hstop : result.status ≠ .optimal) :
    Solver.branchAndBoundSolver fuel P = some (.stopped result.status) := by
  rw [Solver.branchAndBoundSolver, branchSolver, h]
  cases result with
  | optimal => exact absurd rfl hstop
  | unbounded => rfl
  | infeasible => rfl

theorem branchAndBound_root (h : Solver.simplexSolver fuel P.cloneProblem = some (.optimal x v T))
    (hx : Solver.solutionIsInteger x P.variableCount = true) :
    Solver.branchAndBoundSolver fuel P = some (.optimal x v T.toOutMatrix (.root T)) := by
  rw [Solver.branchAndBoundSolver, branchSolver, h]
  exact if_pos hx

theorem branchAndBound_searched
    (h : Solver.simplexSolver fuel P.cloneProblem = some (.optimal x v T))
    (hx : ¬ Solver.solutionIsInteger x P.variableCount = true) :
    Solver.branchAndBoundSolver fuel P = searchOnPaper P fuel := by
  rw [Solver.branchAndBoundSolver, branchSolver, h]
  refine (if_neg hx).trans ?_
  rw [searchOnPaper, Solver.bbSolve]
  cases searchSolve bbRelax P fuel P.cloneProblem (fun _ => 0) 0
    ⟨initialBest P.type, fun _ => 0, 0, none⟩ <;> rfl

end

/-- No incumbent was found. -/
theorem noIncumbent_iff {type : ProblemType} {v : ℚ} : noIncumbent type v = true ↔
    (decide (type = .max) = true ∧ v ≤ -dblMax + 1) ∨
      (¬ decide (type = .max) = true ∧ v ≥ dblMax - 1) := by
  cases type <;> simp [noIncumbent]

/-- **The search from the root**, which is freed. The root is a copy of the problem, so the search
may put a solution into it; the problem of the caller is read only. -/
theorem runs_searchFromRoot (hS : p.Represents S) (hd : d.Represents U)
    (hU : U.problem = S.problem) (hcount : p.constraintCount + maxNodes < 2 ^ 30)
    (hs : s = d.blocks + (p.blocks + F)) :
    Runs sure (searchFromRoot fuel p.fields (start d.object)) s
      (Answers sure p S F (searchOnPaper S.problem fuel)) := by
  subst hs
  have hnum : p.fields.variableCount.toNat = p.objective.size := rfl
  have hrows : p.fields.constraintCount.toNat = p.constraintCount := rfl
  have hvars := hS.variableCount
  have htype : decide (p.fields.type = typeNumber .max) = decide (S.problem.type = .max) := by
    rw [hS.type]
    show decide (typeNumber p.type = _) = _
    cases p.type <;> rfl
  have hdcount : d.constraintCount = p.constraintCount := by
    rw [← hd.constraintCount, ← hS.constraintCount, hU]
  have hshort : ¬ sure → Answers sure p S F (searchOnPaper S.problem fuel)
      (some (.infeasible, none)) (p.blocks + F) :=
    fun hsure => answers_stopped hS fun h => absurd h hsure
  rw [searchFromRoot, hnum, htype]
  dsimp only
  refine runs_bind (runs_calloc (fun hsure => ?_) fun b => ?_)
  · refine runs_bind (runs_calloc (fun _ => ?_) fun o => ?_)
    · rw [if_pos (.inl rfl)]
      exact runs_bind (runs_pure (runs_bind (runs_pure (runs_bind (runs_solverProblemFree rfl
        (runs_pure (hshort hsure)))))))
    · rw [if_pos (.inl rfl)]
      exact runs_bind (runs_pure (runs_bind (runs_freeStart rfl (runs_bind
        (runs_solverProblemFree rfl (runs_pure (hshort hsure)))))))
  refine runs_bind (runs_calloc (fun hsure => ?_) fun o => ?_)
  · rw [if_pos (.inr rfl)]
    exact runs_bind (runs_freeStart rfl (runs_bind (runs_pure (runs_bind
      (runs_solverProblemFree rfl (runs_pure (hshort hsure)))))))
  rw [if_neg fun h => h.elim (start_ne_none _) (start_ne_none _)]
  have hp : ∀ G G' G'' : Multiset (ℕ × List (Cell ℚ)),
      p.blocks ≤ G + (G' + (G'' + (p.blocks + F))) :=
    fun G G' G'' => le_add_left (le_add_left (le_add_left (Multiset.le_add_right _ _)))
  refine runs_bind (MatrixRep.runs_matrixImpl (ProblemRep.constraints_le.trans (hp _ _ _)) ?_)
  refine runs_bind (VectorRep.runs_vectorImpl (ProblemRep.bounds_le.trans (hp _ _ _)) ?_)
  rw [if_neg fun h => h.2.elim (start_ne_none _) (start_ne_none _)]
  dsimp only
  rw [hrows]
  have hstart : Follows p.objective.size ⟨if decide (S.problem.type = .max) = true then -dblMax
      else dblMax, 0⟩ (fun _ => 0) ⟨initialBest S.problem.type, fun _ => 0, 0, none⟩ := by
    refine ⟨?_, rfl, fun _ _ => rfl⟩
    cases S.problem.type <;> rfl
  rw [numbers_zero]
  have hready : pointsTo o (numbers p.objective.size fun _ => (0 : ℚ)) +
      (pointsTo b (numbers p.objective.size fun _ => 0) + (d.blocks + (p.blocks + F))) =
        pointsTo b (numbers p.objective.size fun _ => 0) + (d.blocks +
          (pointsTo o (numbers p.objective.size fun _ => 0) + (p.blocks + F))) := by
    rw [add_left_comm, add_left_comm (pointsTo o _) d.blocks]
  refine runs_bind ((runs_bbSolve hS hd (by rw [hU, hvars])
    (le_add_left (Multiset.le_add_right _ _)) (Multiset.le_add_right _ _)
    (by dsimp only; omega) hready).mono ?_)
  intro r s' hr
  rcases r with _ | st
  · refine runs_pure (.running _ fun hsure => ?_)
    have hnone := hr hsure _ hstart
    rw [hU] at hnone
    exact congrArg (searchAnswer S.problem) hnone
  obtain ⟨f', G, rfl, ⟨d', hobject, rfl⟩, -, hsearched⟩ := hr
  dsimp only
  rw [← hobject]
  refine runs_bind (runs_solverProblemFree (add_left_comm _ _ _) ?_)
  refine runs_bind (runs_freeStart (add_left_comm _ _ _) ?_)
  by_cases hnone : (decide (S.problem.type = .max) = true ∧ st.bestObj ≤ -dblMax + 1) ∨
      (¬ decide (S.problem.type = .max) = true ∧ st.bestObj ≥ dblMax - 1)
  · rw [if_pos hnone]
    refine runs_bind (runs_freeStart rfl (runs_pure (answers_stopped hS fun hsure => ?_)))
    obtain ⟨inc, hinc, hfollows⟩ := hsearched hsure _ hstart
    rw [hU] at hinc
    refine (congrArg (searchAnswer S.problem) hinc).trans (if_pos ?_)
    rw [← hfollows.bestObj, noIncumbent_iff]
    exact hnone
  · rw [if_neg hnone]
    refine runs_bind ((runs_acceptIncumbent hS rfl fun hsure => ?_).mono fun r s' h => runs_pure h)
    obtain ⟨inc, hinc, hfollows⟩ := hsearched hsure _ hstart
    rw [hU] at hinc
    refine ⟨inc.bestSol, .incumbent inc.source,
      (congrArg (searchAnswer S.problem) hinc).trans ((if_neg ?_).trans ?_), hfollows.bestSol⟩
    · rw [← hfollows.bestObj, noIncumbent_iff]
      exact hnone
    · rw [hfollows.bestObj]

/-- Without a solution of the root, its problem and the simplex solver are freed. -/
theorem runs_stoppedRoot (hS : p.Represents S) {object impl : ℕ} {status : Status}
    {m : Option (MatrixRep ℚ)} {paper : Option IntegerResult}
    (hpaper : sure → paper = some (.stopped status))
    (hs : s = d.blocks + (matrixBlocks m +
      (solverBlocks object impl solverSimplex + (p.blocks + F)))) :
    Runs sure (do
      freeSolve (matrixPointer m) (start object)
      solverProblemFree (start d.object)
      return some (status, none)) s (Answers sure p S F paper) := by
  rw [add_left_comm, add_left_comm d.blocks] at hs
  exact runs_bind (runs_freeSolve hs (runs_bind (runs_solverProblemFree rfl
    (runs_pure (answers_stopped hS hpaper)))))

/-- **An integral solution of the root is the answer**, with the tableau of the root. -/
theorem runs_acceptedRoot (hS : p.Represents S) (hd : d.Represents U) {x : ℕ → ℚ} {T : Tableau}
    {m : MatrixRep ℚ} {object impl bs : ℕ} {paper : Option IntegerResult}
    (hpointer : d.fields.solution = start bs)
    (hblock : pointsTo bs (numbers p.objective.size x) ≤ d.blocks) (hshows : Shows m T)
    (hpaper : paper = some (.optimal x U.objectiveValue T.toOutMatrix (.root T)))
    (hs : s = d.blocks + (m.blocks + (solverBlocks object impl solverSimplex + (p.blocks + F)))) :
    Runs sure (do
      acceptRoot p.fields d.fields
      solverFreeMethod (start object)
      solverProblemFree (start d.object)
      return some (.optimal, matrixPointer (some m))) s (Answers sure p S F paper) := by
  subst hs
  refine runs_bind (runs_acceptRoot hS hpointer (add_fourth_comm _ _ _ _ _)
    (hblock.trans (Multiset.le_add_right _ _)) ?_)
  intro p' S' hobject hp' hproblem hvalue hsolution
  refine runs_bind (runs_solverFreeMethod (add_fourth_comm _ _ _ _ _) ?_)
  refine runs_bind (runs_solverProblemFree (add_left_comm _ _ _) (runs_pure ?_))
  have hanswer : Answers sure p S F paper
      (some (.optimal, matrixPointer (some m))) (p'.blocks + (matrixBlocks (some m) + F)) := by
    refine .answer .optimal p' S' (some m) hobject hp' hproblem fun hsure =>
      ⟨_, hpaper, rfl, ?_, ⟨x, hsolution hsure, fun _ _ => rfl⟩, m, rfl, hshows.rows, hshows.cols,
        fun i hi j hj => ?_⟩
    · exact hvalue.trans hd.objectiveValue.symm
    · exact hshows.entries i (Nat.lt_succ_iff.mp hi) j (Nat.lt_succ_iff.mp hj)
  exact hanswer

/-- Maximise `x₀` subject to `2 x₀ ≤ 1`, in memory. -/
def halfInMemory : ProblemRep where
  object := 0
  impl := 1
  constraints := ⟨2, 3, 4, 5, 1, 1, Nat.one_pos, Nat.one_pos, fun _ _ => 2⟩
  objective := ⟨6, 7, 8, 1, Nat.one_pos, fun _ => 1⟩
  bounds := ⟨9, 10, 11, 1, Nat.one_pos, fun _ => 1⟩
  type := .max
  constraintCount := 1
  solution := none
  objectiveValue := 0
  cols_eq := rfl
  count_le := Nat.le_refl 1
  capacity_le := Nat.le_refl 1

/-- The same problem on paper. -/
def halfOnPaper : LpProblem :=
  ((Solver.createProblem 1).setObjective (fun _ => 1) .max).addConstraint (fun _ => 2) 1

end ProblemStorage

end Solver

end OvaLib
