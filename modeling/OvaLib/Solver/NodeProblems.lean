import OvaLib.Solver.BranchingChoice
import OvaLib.Solver.GomoryCuts
import OvaLib.Solver.SimplexReadout

/-!
# What a node hands to the simplex solver

A node of `bb_solve` makes one call of `simplex_solver`, on its own shifted problem. A node of
`bc_solve` makes up to ten: each round of the cutting-plane loop solves the problem of the round
before with the rows that `add_gomory_cuts` derived from its final tableau. `BranchingSolver.solved`
lists these problems, in the order of the calls, and is recursive as the loop is.

The list is what a condition on a run can talk about: a problem of it is the argument of a call, and
whether the call answers well is a question about that problem. What the node does with the answers
follows from two facts. The relaxation it continues with is the read-out of a tableau at which the
call on one of the listed problems stops; and where it has no relaxation, the call on one of them
has not answered `OPTIMAL`.

## The rows of a listed problem

Every listed problem begins with the rows of the node's own problem, and the rows after these have
bounds that are fractional parts (`Extends`). So where the node's bounds are not negative, no listed
problem has a negative bound; and where the node's problem is reached in a run, the rows of the
original problem hold, shifted, at every point of a listed problem.

## Main results

* `relaxed_solved`, `relaxed_unsolved` — where the relaxation of a node comes from
* `solved_extends` — the rows of a listed problem
* `reached_within` — the points of a node are points of the original problem
-/

namespace OvaLib

namespace Solver

open Finset Foundation Relation

variable {p q q' : LpProblem} {T : Tableau} {R : Relaxation} {s c : SearchState} {fuel n i : ℕ}
  {offsets : ℕ → ℚ} {solver : BranchingSolver} {relax : Relax} {orig : LpProblem}

/-! ## The problems -/

/-- The problems that the cutting-plane loop solves, with the rounds that are left. -/
def cutProblems (fuel numVars : ℕ) (offsets : ℕ → ℚ) : ℕ → LpProblem → List LpProblem
  | 0, _ => []
  | rounds + 1, cutProblem =>
    cutProblem ::
      match simplexSolver fuel cutProblem with
      | some (.optimal x _ T) =>
        if solutionIsInteger (fun i => x i + offsets i) numVars then []
        else if (addGomoryCuts cutProblem T numVars).2 = 0 then []
        else cutProblems fuel numVars offsets rounds (addGomoryCuts cutProblem T numVars).1
      | _ => []

/-- The problems that a node hands to `simplex_solver`. -/
def BranchingSolver.solved : BranchingSolver → SearchState → List LpProblem
  | .branchAndBound, s => [s.problem]
  | .branchAndCut, s =>
    cutProblems (s.fuel - 1) s.problem.variableCount s.offsets maxCuts s.problem.cloneProblem

/-- The relaxation is the read-out of a call on one of the problems. -/
structure SolvedBy (l : List LpProblem) (R : Relaxation) : Prop where
  mem : R.problem ∈ l
  stopsAt : StopsAt R.problem R.tableau
  solution : R.solution = R.tableau.readColumn
  objectiveValue : R.objectiveValue = storedObjective R.problem R.tableau

theorem SolvedBy.of_mem {l l' : List LpProblem} (h : SolvedBy l R) (hl : ∀ q ∈ l, q ∈ l') :
    SolvedBy l' R :=
  ⟨hl _ h.mem, h.stopsAt, h.solution, h.objectiveValue⟩

theorem solvedBy_of_optimal {x : ℕ → ℚ} {obj : ℚ} {l : List LpProblem} (hq : q ∈ l)
    (h : simplexSolver fuel q = some (.optimal x obj T)) : SolvedBy l ⟨q, x, obj, T⟩ := by
  obtain ⟨hstop, hx, hobj⟩ := simplexSolver_stopsAt h
  exact ⟨hq, hstop, hx, hobj⟩

/-- **Where the answer of the cutting-plane loop comes from**, by induction on the rounds: it is
the read-out of one of its calls, or the last relaxation of the rounds before. -/
theorem cutLoop_solved {rounds : ℕ} {last : Option Relaxation}
    (h : cutLoop fuel n offsets rounds q last = some (some R)) :
    SolvedBy (cutProblems fuel n offsets rounds q) R ∨ rounds = 0 ∧ last = some R := by
  induction rounds generalizing q last with
  | zero => exact .inr ⟨rfl, Option.some.inj h⟩
  | succ rounds ih =>
    left
    simp only [cutLoop] at h
    cases hrun : simplexSolver fuel q with
    | none =>
      rw [hrun] at h
      cases h
    | some res =>
      cases res with
      | unbounded T =>
        rw [hrun] at h
        cases h
      | infeasible =>
        rw [hrun] at h
        cases h
      | optimal x obj T =>
        simp only [hrun] at h
        have hhere : SolvedBy (cutProblems fuel n offsets (rounds + 1) q) ⟨q, x, obj, T⟩ :=
          solvedBy_of_optimal List.mem_cons_self hrun
        split at h
        · exact Option.some.inj (Option.some.inj h) ▸ hhere
        · next hint =>
          split at h
          · exact Option.some.inj (Option.some.inj h) ▸ hhere
          · next hcuts =>
            rcases ih h with hlater | ⟨-, hlast⟩
            · refine hlater.of_mem fun q' hq' => ?_
              simp only [cutProblems, hrun]
              rw [if_neg hint, if_neg hcuts]
              exact List.mem_cons_of_mem _ hq'
            · exact Option.some.inj hlast ▸ hhere

/-- **Why the cutting-plane loop has no answer**: one of its calls is not `OPTIMAL`. -/
theorem cutLoop_unsolved {rounds : ℕ} {last : Option Relaxation}
    (h : cutLoop fuel n offsets rounds q last = some none) :
    (∃ q' ∈ cutProblems fuel n offsets rounds q, ∃ res, simplexSolver fuel q' = some res ∧
      res.status ≠ .optimal) ∨ rounds = 0 ∧ last = none := by
  induction rounds generalizing q last with
  | zero => exact .inr ⟨rfl, Option.some.inj h⟩
  | succ rounds ih =>
    left
    simp only [cutLoop] at h
    cases hrun : simplexSolver fuel q with
    | none =>
      rw [hrun] at h
      cases h
    | some res =>
      cases res with
      | unbounded T => exact ⟨q, List.mem_cons_self, _, hrun, by rintro ⟨⟩⟩
      | infeasible => exact ⟨q, List.mem_cons_self, _, hrun, by rintro ⟨⟩⟩
      | optimal x obj T =>
        simp only [hrun] at h
        split at h
        · cases h
        · next hint =>
          split at h
          · cases h
          · next hcuts =>
            rcases ih h with ⟨q', hq', hres⟩ | ⟨-, hlast⟩
            · refine ⟨q', ?_, hres⟩
              simp only [cutProblems, hrun]
              rw [if_neg hint, if_neg hcuts]
              exact List.mem_cons_of_mem _ hq'
            · cases hlast

/-- **The relaxation of a node** is the read-out of a call on one of its problems. -/
theorem relaxed_solved (h : s.relaxed solver.relaxOf = some (some R)) :
    SolvedBy (solver.solved s) R := by
  cases solver with
  | branchAndBound =>
    rw [SearchState.relaxed, BranchingSolver.relaxOf, bbRelax] at h
    split at h
    · cases h
    · next x obj T hrun =>
      obtain rfl := Option.some.inj (Option.some.inj h)
      exact solvedBy_of_optimal List.mem_cons_self hrun
    · cases h
  | branchAndCut =>
    rcases cutLoop_solved h with hsolved | ⟨hzero, -⟩
    · exact hsolved
    · cases hzero

/-- **A node without a relaxation** has made a call that is not `OPTIMAL`. -/
theorem relaxed_unsolved (h : s.relaxed solver.relaxOf = some none) :
    ∃ q ∈ solver.solved s, ∃ res, simplexSolver (s.fuel - 1) q = some res ∧
      res.status ≠ .optimal := by
  cases solver with
  | branchAndBound =>
    rw [SearchState.relaxed, BranchingSolver.relaxOf, bbRelax] at h
    cases hrun : simplexSolver (s.fuel - 1) s.problem with
    | none =>
      rw [hrun] at h
      cases h
    | some res =>
      refine ⟨s.problem, List.mem_cons_self, res, hrun, fun hstatus => ?_⟩
      cases res with
      | optimal x obj T =>
        rw [hrun] at h
        cases h
      | unbounded T => cases hstatus
      | infeasible => cases hstatus
  | branchAndCut =>
    rcases cutLoop_unsolved h with hunsolved | ⟨hzero, -⟩
    · exact hunsolved
    · cases hzero

/-! ## Their rows -/

/-- `q'` is `q` with further rows, whose bounds are not negative. -/
structure Extends (q q' : LpProblem) : Prop where
  variableCount : q'.variableCount = q.variableCount
  count_le : q.constraintCount ≤ q'.constraintCount
  old : ∀ k < q.constraintCount, q'.constraints k = q.constraints k ∧ q'.bounds k = q.bounds k
  new : ∀ k, q.constraintCount ≤ k → k < q'.constraintCount → 0 ≤ q'.bounds k

theorem Extends.refl (q : LpProblem) : Extends q q :=
  ⟨rfl, le_rfl, fun _ _ => ⟨rfl, rfl⟩, fun _ hk hk' => absurd hk' (not_lt.mpr hk)⟩

theorem Extends.trans {q'' : LpProblem} (h : Extends q q') (h' : Extends q' q'') :
    Extends q q'' where
  variableCount := h'.variableCount.trans h.variableCount
  count_le := h.count_le.trans h'.count_le
  old := by
    intro k hk
    obtain ⟨hrow, hbound⟩ := h.old k hk
    obtain ⟨hrow', hbound'⟩ := h'.old k (hk.trans_le h.count_le)
    exact ⟨hrow'.trans hrow, hbound'.trans hbound⟩
  new := by
    intro k hk hk'
    rcases lt_or_ge k q'.constraintCount with hlt | hge
    · rw [(h'.old k hlt).2]
      exact h.new k hk hlt
    · exact h'.new k hge hk'

/-- The rows that `add_gomory_cuts` adds have fractional parts for bounds. -/
theorem addGomoryCuts_extends (q : LpProblem) (T : Tableau) (n : ℕ) :
    Extends q (addGomoryCuts q T n).1 := by
  obtain ⟨hvars, hcount, hold, hnew, -⟩ := addGomoryCuts_spec q T n
  refine ⟨hvars, hcount, hold, fun k hk hk' => ?_⟩
  obtain ⟨i, -, -, -, hbound⟩ := hnew k hk hk'
  rw [hbound]
  exact Int.fract_nonneg _

theorem cutProblems_extends {rounds : ℕ} (hq' : q' ∈ cutProblems fuel n offsets rounds q) :
    Extends q q' := by
  induction rounds generalizing q with
  | zero => cases hq'
  | succ rounds ih =>
    rw [cutProblems] at hq'
    rcases List.mem_cons.mp hq' with rfl | hlater
    · exact .refl q'
    · cases hrun : simplexSolver fuel q with
      | none =>
        rw [hrun] at hlater
        cases hlater
      | some res =>
        cases res with
        | unbounded T =>
          rw [hrun] at hlater
          cases hlater
        | infeasible =>
          rw [hrun] at hlater
          cases hlater
        | optimal x obj T =>
          simp only [hrun] at hlater
          split at hlater
          · cases hlater
          · split at hlater
            · cases hlater
            · exact (addGomoryCuts_extends q T n).trans (ih hlater)

/-- **The rows of a listed problem**: those of the node first. -/
theorem solved_extends (hq : q ∈ solver.solved s) : Extends s.problem q := by
  cases solver with
  | branchAndBound =>
    obtain rfl := List.mem_singleton.mp hq
    exact .refl _
  | branchAndCut => exact cutProblems_extends hq

/-- No bound is negative where those of the node are not. -/
theorem Extends.bounds_nonneg (h : Extends q q')
    (hbounds : ∀ i < q.constraintCount, 0 ≤ q.bounds i) :
    ∀ i < q'.constraintCount, 0 ≤ q'.bounds i := by
  intro i hi
  rcases lt_or_ge i q.constraintCount with hlt | hge
  · rw [(h.old i hlt).2]
    exact hbounds i hlt
  · exact h.new i hge hi

/-- A point of a problem with more rows is one of the problem. -/
theorem Extends.isFeasible (h : Extends q q') {y : ℕ → ℚ} (hy : IsFeasible q' y) :
    IsFeasible q y where
  nonneg := by
    intro j hj
    exact hy.nonneg j (h.variableCount ▸ hj)
  row := by
    intro i hi
    have hrow := hy.row i (hi.trans_le h.count_le)
    obtain ⟨hcoefficients, hbound⟩ := h.old i hi
    rwa [LpProblem.lhs, hcoefficients, h.variableCount, hbound] at hrow

/-! ## The nodes of a run -/

/-- A point in the variables of a shifted problem is a point of that problem, moved back. -/
theorem shiftedFeasible_add {y : ℕ → ℚ} (hy : IsFeasible q y) :
    ShiftedFeasible q offsets fun j => y j + offsets j where
  above := fun j hj => le_add_of_nonneg_left (hy.nonneg j hj)
  row := fun i hi => by
    simp only [add_sub_cancel_right]
    exact hy.row i hi

/-- What a node has of the original problem. -/
structure Within (p : LpProblem) (s : SearchState) : Prop where
  offsets_nonneg : ∀ k, 0 ≤ s.offsets k
  count_le : p.constraintCount ≤ s.problem.constraintCount
  point : ∀ y, ShiftedFeasible s.problem s.offsets y → ShiftedFeasible p (fun _ => 0) y

theorem SearchChild.within (h : SearchChild relax orig s c) (hs : Within p s)
    (hvars : s.problem.variableCount = orig.variableCount) : Within p c := by
  cases h with
  | @floor R j hb hub =>
    have hj : j < s.problem.variableCount := hvars ▸ hb.lt
    refine ⟨hs.offsets_nonneg, hs.count_le.trans (Nat.le_succ _), fun y hy => hs.point y ?_⟩
    exact ((shiftedFeasible_floor_iff hj _).mp hy).1
  | @ceil R j inc hb hfloor hlb =>
    have hj : j < s.problem.variableCount := hvars ▸ hb.lt
    have habove := sub_nonneg.mp hlb
    have hoffsets : (s.ceilChild j (s.trueSol R j) inc).offsets =
        Function.update s.offsets j ⌈s.trueSol R j⌉ := rfl
    refine ⟨fun k => ?_, hs.count_le, fun y hy => hs.point y ?_⟩
    · rw [hoffsets]
      by_cases hkj : k = j
      · rw [hkj, Function.update_self]
        exact (hs.offsets_nonneg j).trans habove
      · rw [Function.update_of_ne hkj]
        exact hs.offsets_nonneg k
    · exact ((shiftedFeasible_ceil_iff hj habove).mp hy).1

/-- **The points of a node are points of the original problem**, in every run. -/
theorem reached_within (h : ReflTransGen (SearchChild relax p) (searchRoot fuel p) s) :
    Within p s := by
  induction h with
  | refl => exact ⟨fun _ => le_rfl, le_rfl, fun _ hy => hy⟩
  | tail hreached hstep ih => exact hstep.within ih (reached_subproblem hreached).1.variableCount

/-- At a point of a listed problem, moved back, the feasibility test passes. -/
theorem checkFeasibility_of_isFeasible
    (hs : ReflTransGen (SearchChild relax p) (searchRoot fuel p) s) (hq : Extends s.problem q)
    {y : ℕ → ℚ} (hy : IsFeasible q y) : checkFeasibility p (fun j => y j + s.offsets j) = true := by
  have hpoint := (reached_within hs).point _ (shiftedFeasible_add (hq.isFeasible hy))
  refine checkFeasibility_iff.mpr fun i hi => ?_
  have hrow := hpoint.row i hi
  simp only [sub_zero] at hrow
  exact hrow.trans (le_add_of_nonneg_right intTol_pos.le)

end Solver

end OvaLib
