import OvaLib.Solver.NodeProblems

/-!
# Runs that miss no integer point

`bb_solve` and `bc_solve` answer for all integer points of a problem, and a node loses the ones it
still has when one of four branches of the code is taken. This module states what excludes them, of
the problems that a node solves, and shows that a run of such nodes misses nothing.

## The four branches

*The bounds.* `clone_with_lower_bound` subtracts `a * lb` from every bound, and `simplex_solver` has
no first phase: from a negative bound it starts at a basis that is not feasible, and it answers
`UNBOUNDED`, or `OPTIMAL` with a point that satisfies nothing. So the bounds of a node that still
has an integer point must not be negative. A node without one may end as it likes.

*The ratio test.* The relaxation must not end at `UNBOUNDED`, and its basic point must stay
feasible: every turn of the loop is right. A node whose status is not `OPTIMAL` is dropped.

*The tests on the values.* A node whose values are all within `1e-6` of integers is accepted when
they satisfy the constraints, and has no variable to branch on when they do not. So where no value
is fractional, the rows must be read once each, which makes the values feasible; and a value at a
distance of exactly `1e-6` passes neither test. Where a value is fractional the node branches,
whatever the others are.

*The tolerance of the scan.* The loop stops with reduced costs in `[-1e-9, 0)`. One at a column that
no integer point of the node uses, such as a variable that is bounded by zero, changes nothing; at
another the stored objective is no bound.

For branch and cut there is a fifth: the rows of `add_gomory_cuts` go the wrong way, and one of them
must not exclude an integer point of the node.

## What is not asked

The condition says nothing of what the search makes of its answers: not which nodes are dropped, not
which are pruned, not how good the incumbent is. It is about the arguments of the calls: the shifted
problem of a node, the problems it hands to `simplex_solver`, and the tableaus of the loop before a
turn and before the read-out.

## Main results

* `NodeSafe.nodeKeeps` — a node that is safe keeps its integer points
* `branchingSolver_complete` — runs whose nodes are safe miss nothing
-/

namespace OvaLib

namespace Solver

open Finset Foundation Relation

variable {p q : LpProblem} {T : Tableau} {R : Relaxation} {s : SearchState} {fuel j : ℕ}
  {offsets : ℕ → ℚ} {solver : BranchingSolver} {x : ℕ → ℕ}

/-! ## The condition -/

/-- A reduced cost that the entering scan passes over belongs to a column that is zero at every
integer point. -/
def ReducedHarmless (q : LpProblem) (offsets : ℕ → ℚ) (T : Tableau) : Prop :=
  ∀ j < T.width, T.data T.rows j < 0 → ∀ x, NodePoint q offsets x →
    withSlacks q (fun k => (x k : ℚ) - offsets k) j = 0

/-- One of the values read is fractional, beyond the tolerance; or each row is read at most once,
and no value is at the tolerance exactly. -/
def Decided (T : Tableau) : Prop :=
  (∃ j < T.cols, intTol < gridDistance (T.readColumn j)) ∨
    ReadsOnce T ∧ ∀ j < T.cols, gridDistance (T.readColumn j) ≠ intTol

instance (T : Tableau) : Decidable (Decided T) :=
  inferInstanceAs (Decidable ((∃ j < T.cols, intTol < gridDistance (T.readColumn j)) ∨
    ReadsOnce T ∧ ∀ j < T.cols, gridDistance (T.readColumn j) ≠ intTol))

/-- **The condition on a node**, in terms of its shifted problem and of the problems it hands to the
simplex solver. -/
structure NodeSafe (solver : BranchingSolver) (s : SearchState) : Prop where
  bounds : ∀ i < s.problem.constraintCount, 0 ≤ s.problem.bounds i
  cuts : ∀ q ∈ solver.solved s, ∀ x, NodePoint s.problem s.offsets x → NodePoint q s.offsets x
  turns : ∀ q ∈ solver.solved s, RightTurns q
  decided : ∀ q ∈ solver.solved s, ∀ T, StopsAt q T → Decided T
  reduced : ∀ q ∈ solver.solved s, ∀ T, StopsAt q T → ReducedHarmless q s.offsets T

/-- **The condition on a run**: there is a constraint; where the relaxation of the problem itself is
integral, its reduced costs are harmless; and where it is not, every node of the search that still
has an integer point is safe. -/
structure RunSafe (solver : BranchingSolver) (fuel : ℕ) (p : LpProblem) : Prop where
  row : 0 < p.constraintCount
  root : ∀ T, StopsAt p T → solutionIsInteger T.readColumn p.variableCount = true →
    ReducedHarmless p (fun _ => 0) T
  nodes : ∀ T, StopsAt p T → solutionIsInteger T.readColumn p.variableCount = false →
    ∀ s, ReflTransGen (SearchChild solver.relaxOf p) (searchRoot fuel p) s →
      ∀ x, NodePoint s.problem s.offsets x → NodeSafe solver s

/-! ## A safe node -/

/-- At a harmless stop no reduced cost counts negative at an integer point. -/
theorem ReducedHarmless.product_nonneg (h : ReducedHarmless q offsets T) (hT : TableauInv q T)
    (hx : NodePoint q offsets x) (hj : j < T.width) :
    0 ≤ T.data T.rows j * withSlacks q (fun k => (x k : ℚ) - offsets k) j := by
  rcases lt_or_ge (T.data T.rows j) 0 with hneg | hnonneg
  · rw [h j hj hneg x hx, mul_zero]
  · rw [Tableau.width, hT.cols_eq, hT.rows_eq] at hj
    exact mul_nonneg hnonneg (withSlacks_nonneg hx.isFeasible hj)

/-- Moving by an integer keeps the distance to the integers. -/
theorem gridDistance_add_int (v : ℚ) (z : ℤ) : gridDistance (v + z) = gridDistance v := by
  rw [gridDistance, gridDistance, round_add_intCast]
  push_cast
  rw [add_sub_add_right_eq_sub]

/-- What the values of a node are, for a relaxation that one of its calls has answered. -/
theorem trueSol_gridDistance (hint : IntegerOffsets s) (hR : R.solution = R.tableau.readColumn)
    (j : ℕ) : gridDistance (s.trueSol R j) = gridDistance (R.tableau.readColumn j) := by
  obtain ⟨z, hz⟩ := hint j
  rw [SearchState.trueSol, hR, hz, gridDistance_add_int]

/-- The values read are not negative where the right-hand sides are not. -/
theorem readColumn_nonneg (hrhs : ∀ i < T.rows, 0 ≤ T.rhs i) (j : ℕ) : 0 ≤ T.readColumn j := by
  cases hr : T.readRow j with
  | none => rw [Tableau.readColumn, hr]
  | some r =>
    rw [readColumn_of_readRow hr]
    exact hrhs r (readRow_lt hr)

/-- The right-hand sides at the relaxation of a safe node are not negative. -/
theorem NodeSafe.rhs_nonneg (hsafe : NodeSafe solver s) (hR : SolvedBy (solver.solved s) R) :
    ∀ i < R.tableau.rows, 0 ≤ R.tableau.rhs i := by
  have hbounds := (solved_extends hR.mem).bounds_nonneg hsafe.bounds
  exact hR.stopsAt.reached.rhs_nonneg (hsafe.turns _ hR.mem) hbounds

section

variable (hs : ReflTransGen (SearchChild solver.relaxOf p) (searchRoot fuel p) s)

include hs

theorem SolvedBy.cols_eq (hR : SolvedBy (solver.solved s) R) :
    R.tableau.cols = p.variableCount := by
  rw [hR.stopsAt.reached.inv.cols_eq, (solved_extends hR.mem).variableCount]
  exact (reached_subproblem hs).1.variableCount

/-- **A safe node has a relaxation**: none of its calls ends at another status. -/
theorem NodeSafe.not_unsolved (hsafe : NodeSafe solver s) (hrow : 0 < p.constraintCount)
    (hvars : 0 < p.variableCount) : s.relaxed solver.relaxOf ≠ some none := by
  intro hnone
  obtain ⟨q, hq, res, hres, hstatus⟩ := relaxed_unsolved hnone
  have hextends := solved_extends hq
  have hrows := (hrow.trans_le (reached_within hs).count_le).trans_le hextends.count_le
  have hcols : 0 < q.variableCount := by
    rw [hextends.variableCount, (reached_subproblem hs).1.variableCount]
    exact hvars
  exact hstatus ((hsafe.turns q hq).status_eq hrows hcols hres)

/-- **A safe node is not stuck**: where no value is fractional, the values satisfy the constraints,
so that they are accepted. -/
theorem NodeSafe.not_stuck (hsafe : NodeSafe solver s) (hfrac : Fractional solver.relaxOf p s R) :
    findBranchingVariable (s.trueSol R) p.variableCount ≠ none := by
  intro hnone
  have hR := relaxed_solved hfrac.relaxed
  have hint := (reached_subproblem hs).2
  have hcols := hR.cols_eq hs
  have hnear : ∀ j < p.variableCount, gridDistance (R.tableau.readColumn j) ≤ intTol := by
    intro j hj
    rw [← trueSol_gridDistance hint hR.solution]
    exact findBranchingVariable_eq_none_iff.mp hnone j hj
  rcases hsafe.decided _ hR.mem _ hR.stopsAt with ⟨j, hj, hfar⟩ | ⟨honce, hoff⟩
  · exact absurd hfar (not_lt.mpr (hnear j (hcols ▸ hj)))
  · -- the read-out is a point of the problem, so only the integrality test can have failed
    have hsound := honce.sound hR.stopsAt.reached.inv (hsafe.rhs_nonneg hR)
    have hfeasible : checkFeasibility p (s.trueSol R) = true := by
      have hpoint := checkFeasibility_of_isFeasible hs (solved_extends hR.mem)
        ⟨hsound.nonneg, hsound.feasible⟩
      rwa [← hR.solution] at hpoint
    have hrejected := hfrac.notAccepted
    rw [hfeasible, Bool.and_true] at hrejected
    obtain ⟨j, hj, hle⟩ := solutionIsInteger_eq_false_iff.mp hrejected
    rw [trueSol_gridDistance hint hR.solution] at hle
    exact hoff j (hcols.symm ▸ hj) ((hnear j hj).antisymm hle)

/-- **A safe node skips no child**: its values are not below the origin. -/
theorem NodeSafe.not_skipped (hsafe : NodeSafe solver s)
    (hb : BranchesOn solver.relaxOf p s R j) : s.offsets j ≤ (⌈s.trueSol R j⌉ : ℚ) := by
  have hR := relaxed_solved hb.fractional.relaxed
  refine (offset_le_floor (reached_subproblem hs).2 ?_).2
  rw [hR.solution]
  exact readColumn_nonneg (hsafe.rhs_nonneg hR) j

/-- **A safe node keeps its integer points.** -/
theorem NodeSafe.nodeKeeps (hsafe : NodeSafe solver s) (hrow : 0 < p.constraintCount)
    (hvars : 0 < p.variableCount) (hx : NodePoint s.problem s.offsets x) :
    NodeKeeps solver.relaxOf p s x where
  notDropped := by
    rintro (⟨-, hnone⟩ | ⟨hfrac, hnone⟩ | ⟨hb, hlb⟩)
    · exact hsafe.not_unsolved hs hrow hvars hnone
    · exact hsafe.not_stuck hs hfrac hnone
    · exact absurd (hsafe.not_skipped hs hb) (not_le.mpr (sub_neg.mp hlb))
  reduced := by
    intro R hrelaxed j hj
    have hR := relaxed_solved hrelaxed
    exact (hsafe.reduced _ hR.mem _ hR.stopsAt).product_nonneg hR.stopsAt.reached.inv
      (hsafe.cuts _ hR.mem x hx) hj

end

/-! ## A safe run -/

/-- **A safe run keeps what it has.** -/
theorem RunSafe.runKeeps (hsafe : RunSafe solver fuel p) (hvars : 0 < p.variableCount) :
    RunKeeps solver.relaxOf fuel p where
  row := hsafe.row
  root := by
    intro x obj T hroot hint y hy j hj
    obtain ⟨hstop, rfl, -⟩ := simplexSolver_stopsAt hroot
    have hpoint := hy.nodePoint
    have hproduct := (hsafe.root T hstop hint).product_nonneg hstop.reached.inv hpoint hj
    simpa only [sub_zero] using hproduct
  nodes := by
    intro x obj T hroot hint s hs y hy
    obtain ⟨hstop, rfl, -⟩ := simplexSolver_stopsAt hroot
    exact (hsafe.nodes T hstop hint s hs y hy).nodeKeeps hs hsafe.row hvars hy

section

variable {relax : Relax} {orig : LpProblem} {c : SearchState}

/-- The variable that a node branches on, with its value. -/
def SearchState.branching (relax : Relax) (orig : LpProblem) (s : SearchState) : Option (ℕ × ℚ) :=
  match s.relaxed relax with
  | some (some R) =>
    if maxNodes ≤ s.start.nodes ∨ isPruned orig.type (s.objVal R) s.start.bestObj ∨
        (solutionIsInteger (s.trueSol R) orig.variableCount &&
          checkFeasibility orig (s.trueSol R)) then none
    else (findBranchingVariable (s.trueSol R) orig.variableCount).map fun j => (j, s.trueSol R j)
  | _ => none

theorem BranchesOn.branching_eq (h : BranchesOn relax orig s R j) :
    s.branching relax orig = some (j, s.trueSol R j) := by
  obtain ⟨⟨hcounted, hrelaxed, hpruned, haccepted⟩, hfound⟩ := h
  simp only [SearchState.branching, hrelaxed]
  rw [if_neg, hfound, Option.map_some]
  rw [not_or, not_or, hpruned, haccepted]
  exact ⟨not_le.mpr hcounted, Bool.false_ne_true, Bool.false_ne_true⟩

/-- The children of a node, the ones that the guards skip among them. -/
def SearchState.children (relax : Relax) (orig : LpProblem) (s : SearchState) :
    List SearchState :=
  match s.branching relax orig with
  | none => []
  | some (j, v) =>
    match s.afterFloor relax orig j v with
    | none => [s.floorChild j v]
    | some inc => [s.floorChild j v, s.ceilChild j v inc]

theorem SearchChild.mem_children (h : SearchChild relax orig s c) :
    c ∈ s.children relax orig := by
  cases h with
  | @floor R j hb hub =>
    rw [SearchState.children, hb.branching_eq]
    dsimp only
    cases s.afterFloor relax orig j (s.trueSol R j)
    exacts [List.mem_singleton_self _, List.mem_cons_self]
  | @ceil R j inc hb hfloor hlb =>
    rw [SearchState.children, hb.branching_eq]
    dsimp only
    rw [hfloor]
    exact List.mem_cons_of_mem _ List.mem_cons_self

/-- The nodes of a search, down to a depth. -/
def SearchState.nodesTo (relax : Relax) (orig : LpProblem) : ℕ → SearchState → List SearchState
  | 0, s => [s]
  | depth + 1, s => s :: (s.children relax orig).flatMap (nodesTo relax orig depth)

/-- The search makes no call below a depth. -/
def SearchState.EndsBy (relax : Relax) (orig : LpProblem) : ℕ → SearchState → Prop
  | 0, s => (s.children relax orig).isEmpty = true
  | depth + 1, s => ∀ c ∈ s.children relax orig, EndsBy relax orig depth c

instance decidableEndsBy (relax : Relax) (orig : LpProblem) :
    ∀ depth s, Decidable (SearchState.EndsBy relax orig depth s)
  | 0, s => inferInstanceAs (Decidable ((s.children relax orig).isEmpty = true))
  | depth + 1, s =>
    have := decidableEndsBy relax orig depth
    inferInstanceAs (Decidable (∀ c ∈ s.children relax orig, SearchState.EndsBy relax orig depth c))

/-- **All nodes of a search** are in the list, once it is long enough. -/
theorem mem_nodesTo {depth : ℕ} (hend : s.EndsBy relax orig depth)
    (h : ReflTransGen (SearchChild relax orig) s c) : c ∈ s.nodesTo relax orig depth := by
  induction depth generalizing s with
  | zero =>
    rcases h.cases_head with rfl | ⟨t, hst, -⟩
    · exact List.mem_singleton_self _
    · have hmem := hst.mem_children
      rw [List.isEmpty_iff.mp hend] at hmem
      cases hmem
  | succ depth ih =>
    rw [SearchState.nodesTo]
    rcases h.cases_head with rfl | ⟨t, hst, htc⟩
    · exact List.mem_cons_self
    · refine List.mem_cons_of_mem _ (List.mem_flatMap.mpr ⟨t, hst.mem_children, ?_⟩)
      exact ih (hend t hst.mem_children) htc

end

/-- A row with a negative bound and without negative coefficients, which no point satisfies. -/
def HasDeadRow (q : LpProblem) : Prop :=
  ∃ i < q.constraintCount, q.bounds i < 0 ∧ ∀ j < q.variableCount, 0 ≤ q.constraints i j

instance (q : LpProblem) : Decidable (HasDeadRow q) :=
  inferInstanceAs (Decidable (∃ i < q.constraintCount, q.bounds i < 0 ∧
    ∀ j < q.variableCount, 0 ≤ q.constraints i j))

theorem HasDeadRow.not_nodePoint (h : HasDeadRow q) : ¬ NodePoint q offsets x := by
  obtain ⟨i, hi, hneg, hcoefficients⟩ := h
  intro hx
  have hsum : 0 ≤ q.lhs i fun j => x j - offsets j := sum_nonneg fun j hj =>
    mul_nonneg (hcoefficients j (mem_range.mp hj)) (sub_nonneg.mpr (hx.above j (mem_range.mp hj)))
  exact absurd (hsum.trans (hx.row i hi)) (not_le.mpr hneg)

/-- What can be computed of a tableau: its turn is right, and where no column enters, the values are
decided and no reduced cost is negative. -/
def TableauSafe (T : Tableau) : Prop :=
  RightTurn T ∧ (enteringColumn T = none → Decided T ∧ ∀ j < T.width, 0 ≤ T.data T.rows j)

instance (T : Tableau) : Decidable (TableauSafe T) :=
  inferInstanceAs (Decidable (RightTurn T ∧
    (enteringColumn T = none → Decided T ∧ ∀ j < T.width, 0 ≤ T.data T.rows j)))

theorem reducedHarmless_of_callHas {turns : ℕ} (h : CallHas TableauSafe turns q)
    (hT : StopsAt q T) : ReducedHarmless q offsets T := by
  obtain ⟨-, hnonneg⟩ := (h.of_reaches hT.reached).2 hT.noEntering
  intro j hj hneg
  exact absurd hneg (not_lt.mpr (hnonneg j hj))

/-- A node of branch and bound makes one call. -/
theorem nodeSafe_of_callHas {turns : ℕ} (h : CallHas TableauSafe turns s.problem) :
    NodeSafe .branchAndBound s := by
  have hone : ∀ q ∈ BranchingSolver.branchAndBound.solved s, q = s.problem :=
    fun q hq => List.mem_singleton.mp hq
  refine ⟨h.1, fun q hq x hx => ?_, fun q hq => ?_, fun q hq T hT => ?_, fun q hq T hT => ?_⟩
  · rwa [hone q hq]
  · rw [hone q hq]
    exact fun T hT => (h.of_reaches hT).1
  · rw [hone q hq] at hT
    exact ((h.of_reaches hT.reached).2 hT.noEntering).1
  · rw [hone q hq] at hT ⊢
    exact reducedHarmless_of_callHas h hT

/-- **A run can be checked**: a search of branch and bound has finitely many nodes, and each of them
has a row that no point satisfies or is safe. -/
theorem runSafe_of_nodes (depth turns : ℕ) (hrow : 0 < p.constraintCount)
    (hroot : CallHas TableauSafe turns p) (hend : (searchRoot fuel p).EndsBy bbRelax p depth)
    (hnodes : ∀ s ∈ (searchRoot fuel p).nodesTo bbRelax p depth,
      HasDeadRow s.problem ∨ CallHas TableauSafe turns s.problem) :
    RunSafe .branchAndBound fuel p where
  row := hrow
  root := fun T hT _ => reducedHarmless_of_callHas hroot hT
  nodes := by
    intro T _ _ s hs x hx
    rcases hnodes s (mem_nodesTo hend hs) with hdead | hcall
    · exact absurd hx hdead.not_nodePoint
    · exact nodeSafe_of_callHas hcall

/-- Maximise `5 x₀ + 4 x₁` subject to `6 x₀ + 4 x₁ ≤ 9` and `x₀ + 2 x₁ ≤ 3`. -/
def twoRows : LpProblem :=
  (((createProblem 2).setObjective (fun j => [5, 4].getD j 0) .max).addConstraint
    (fun j => [6, 4].getD j 0) 9).addConstraint (fun j => [1, 2].getD j 0) 3

/-- The search has eleven nodes. The optimum `(1, 0)` is found below a ceil child, where the origin
of `x₀` is one; five nodes have a row that no point satisfies. -/
theorem runSafe_twoRows : RunSafe .branchAndBound 8 twoRows :=
  runSafe_of_nodes 4 5 (by decide) (by decide +kernel) (by decide +kernel)
    (by decide +kernel)

end Solver

end OvaLib
