import OvaLib.Solver.SafeRuns

/-!
# Runs whose stored solutions are sound

An integer solver hands over one of four things: the read-out of the root relaxation, when that is
integral; an incumbent of the search; the rounded root relaxation, for the Lagrangean solver; or a
rounded candidate of its subgradient loop. Only the last is checked and valued by itself. The others
are as good as the read-out they come from, and this module says which read-outs are good: those of
problems that are readable and have no negative bound.

## The steps that store

A search stores a solution at a node whose values are integral, satisfy the constraints of the
original problem and improve on the incumbent (`Stores`); the check leaves open whether a value is
negative, and the objective value that is stored is the one of the tableau. What the caller finds is
what the last of these steps stored (`SearchState.run_stored`), and `StoresSafely` asks the same of
each of them: of the problem whose read-out is stored, not of the answer.

The root relaxation is stored without a check. For branch and bound and for branch and cut it is
taken as it is. The Lagrangean solver rounds every value, which moves a row by the coefficients
times the roundings, and nothing bounds this by the tolerance when the coefficients are large.

## Main results

* `SearchState.run_stored` — where the incumbent of a search comes from
* `integerSolver_sound_of_storesSafely` — the answers of all three solvers
-/

namespace OvaLib

namespace Solver

open Finset Foundation Relation

variable {p orig : LpProblem} {T : Tableau} {R : Relaxation} {s : SearchState} {fuel : ℕ}
  {relax : Relax} {inc : Incumbent} {type : IntegerSolverType} {x : ℕ → ℚ} {obj : ℚ}
  {out : OutMatrix} {src : Source}

/-! ## Where an incumbent comes from -/

/-- **The incumbent of a search** is the one it started from, or a node of the search has stored it.
By induction on the fuel. -/
theorem SearchState.run_stored (h : s.run relax orig = some inc) :
    (inc.bestObj = s.start.bestObj ∧ inc.source = s.start.source) ∨
      ∃ s' R, ReflTransGen (SearchChild relax orig) s s' ∧ Stores relax orig s' R ∧
        inc.source = some ⟨R, s'.offsets, s'.objOffset⟩ := by
  obtain ⟨fuel, hfuel⟩ : ∃ fuel, s.fuel = fuel := ⟨_, rfl⟩
  induction fuel generalizing s inc with
  | zero =>
    rw [SearchState.run, hfuel] at h
    cases h
  | succ fuel ih =>
    cases s.nodeOutcome h with
    | limit hlimit hinc =>
      rw [hinc]
      exact .inl ⟨rfl, rfl⟩
    | dropped hdropped hinc =>
      rw [hinc]
      exact .inl ⟨rfl, rfl⟩
    | pruned hR hpruned hinc =>
      rw [hinc]
      exact .inl ⟨rfl, rfl⟩
    | passed hR hnot hinc =>
      rw [hinc]
      exact .inl ⟨rfl, rfl⟩
    | @stored R hstores hinc =>
      rw [hinc]
      exact .inr ⟨s, R, .refl, hstores, rfl⟩
    | @branched R j inc₁ hbranch hfloor hlb hceil =>
      have hpred : s.fuel - 1 = fuel := by omega
      have hfirst : (inc₁.bestObj = s.start.bestObj ∧ inc₁.source = s.start.source) ∨
          ∃ s' R, ReflTransGen (SearchChild relax orig) s s' ∧ Stores relax orig s' R ∧
            inc₁.source = some ⟨R, s'.offsets, s'.objOffset⟩ := by
        by_cases hub : 0 ≤ (⌊s.trueSol R j⌋ : ℚ) - s.offsets j
        · have hrun := hfloor
          rw [SearchState.afterFloor, if_pos hub] at hrun
          rcases ih hrun hpred with hkept | ⟨s', R', hreach, hstores, hsource⟩
          · exact .inl hkept
          · exact .inr ⟨s', R', .head (.floor hbranch hub) hreach, hstores, hsource⟩
        · rw [SearchState.afterFloor, if_neg hub] at hfloor
          obtain rfl := Option.some.inj hfloor
          exact .inl ⟨rfl, rfl⟩
      rcases ih hceil hpred with ⟨hbest, hsource⟩ | ⟨s', R', hreach, hstores, hsource⟩
      · rcases hfirst with ⟨hbest₁, hsource₁⟩ | ⟨s', R', hreach, hstores, hsource₁⟩
        · exact .inl ⟨hbest.trans hbest₁, hsource.trans hsource₁⟩
        · exact .inr ⟨s', R', hreach, hstores, hsource.trans hsource₁⟩
      · exact .inr ⟨s', R', .head (.ceil hbranch hfloor hlb) hreach, hstores, hsource⟩

/-! ## The condition -/

/-- The solver type of a solver that branches. -/
def BranchingSolver.solverType : BranchingSolver → IntegerSolverType
  | .branchAndBound => .branchAndBound
  | .branchAndCut => .branchAndCut

/-- The relaxation of the problem itself is accepted as integral where the call on it stops. -/
def RootIntegral (p : LpProblem) : Prop :=
  ∃ T, StopsAt p T ∧ solutionIsInteger T.readColumn p.variableCount = true

/-- **The condition on a run**, for each step that stores a solution: the problem whose read-out is
stored is readable and has no negative bound, and where the Lagrangean solver rounds the root
relaxation, no row moves up by more than the tolerance. -/
structure StoresSafely (type : IntegerSolverType) (fuel : ℕ) (p : LpProblem) : Prop where
  root : RootIntegral p → Readable p
  rounding : type = .lagrangeanSimplex → RootIntegral p → ∀ T, StopsAt p T →
    ∀ i < p.constraintCount,
      p.lhs i (fun j => cRound (T.readColumn j) - T.readColumn j) ≤ intTol
  nodes : ∀ solver : BranchingSolver, solver.solverType = type → ¬ RootIntegral p →
    ∀ s, ReflTransGen (SearchChild solver.relaxOf p) (searchRoot fuel p) s →
      ∀ R, Stores solver.relaxOf p s R →
        (∀ i < R.problem.constraintCount, 0 ≤ R.problem.bounds i) ∧ Readable R.problem

/-! ## What is stored -/

/-- The read-out of a readable problem without negative bounds is sound. -/
theorem Readable.sound (h : Readable p) (hbounds : ∀ i < p.constraintCount, 0 ≤ p.bounds i)
    (hT : StopsAt p T) : SolutionSound p T.readColumn (storedObjective p T) :=
  (h.readsOnce T hT).sound hT.reached.inv (hT.reached.rhs_nonneg h.turns hbounds)

/-- A root relaxation that is sound fits. -/
theorem rootFits_of_sound (hT : TableauInv p T)
    (h : SolutionSound p T.readColumn (storedObjective p T)) : RootFits p T := by
  obtain ⟨hnonneg, hslack, hcost⟩ := hT.solutionSound_iff.mp h
  have htol := intTol_pos
  refine ⟨fun j hj => ?_, fun i hi => ?_, hcost⟩
  · have hj' := hnonneg j hj
    rw [Tableau.readout]
    linarith
  · have hi' := hslack i hi
    linarith

theorem cRound_nonneg {v : ℚ} (hv : 0 ≤ v) : 0 ≤ cRound v := by
  rw [cRound, if_pos hv]
  exact Int.floor_nonneg.mpr (by linarith)

/-- A root relaxation that is sound fits rounded, where the rounding moves no row too far. -/
theorem roundedFits_of_sound (hT : TableauInv p T)
    (h : SolutionSound p T.readColumn (storedObjective p T))
    (hrounding : ∀ i < p.constraintCount,
      p.lhs i (fun j => cRound (T.readColumn j) - T.readColumn j) ≤ intTol) : RoundedFits p T := by
  obtain ⟨hnonneg, hslack, -⟩ := hT.solutionSound_iff.mp h
  have hread : T.readColumn = T.readout := funext hT.readColumn_eq
  refine ⟨fun j hj => cRound_nonneg (hnonneg j hj), fun i hi => ?_⟩
  have hshift : p.lhs i T.roundingShift =
      p.lhs i (fun j => cRound (T.readColumn j) - T.readColumn j) + p.lhs i T.phantom := by
    rw [← p.lhs_add]
    refine p.lhs_congr i fun j _ => ?_
    rw [Tableau.roundingShift, hread, Tableau.readout]
    ring
  have hi' := hslack i hi
  have hrow := hrounding i hi
  rw [hshift]
  linarith

/-- A node whose relaxation is sound fits: its offsets are not negative. -/
theorem nodeFits_of_stores {solver : BranchingSolver}
    (hs : ReflTransGen (SearchChild solver.relaxOf p) (searchRoot fuel p) s)
    (hstores : Stores solver.relaxOf p s R)
    (hbounds : ∀ i < R.problem.constraintCount, 0 ≤ R.problem.bounds i)
    (hreadable : Readable R.problem) : NodeFits p ⟨R, s.offsets, s.objOffset⟩ := by
  have hR := relaxed_solved hstores.relaxed
  have hT := hR.stopsAt.reached.inv
  have hsub := (reached_subproblem hs).1
  have hspec : RelaxSpec solver.relaxOf := by
    cases solver
    exacts [bbRelax_spec, bcRelax_spec]
  have hof := hspec _ _ _ _ hstores.relaxed
  obtain ⟨hnonneg, -, hcost⟩ := hT.solutionSound_iff.mp (hreadable.sound hbounds hR.stopsAt)
  refine ⟨fun j hj => ?_, ?_⟩
  · have hvalue : 0 ≤ R.tableau.readout j := hnonneg j (by
      rw [hof.variableCount, hsub.variableCount]
      exact hj)
    have hoffset := (reached_within hs).offsets_nonneg j
    have htol := intTol_pos
    dsimp only
    linarith
  · rw [LpProblem.objectiveAt, hof.variableCount, hsub.variableCount, hof.objective,
      hsub.objective] at hcost
    exact hcost

/-! ## All three solvers -/

/-- What the two solvers that branch hand over fits. -/
theorem StoresSafely.branchSolver_fits (solver : BranchingSolver)
    (hsafe : StoresSafely solver.solverType fuel p)
    (hbounds : ∀ i < p.constraintCount, 0 ≤ p.bounds i)
    (h : branchSolver solver.relaxOf fuel p = some (.optimal x obj out src)) : src.Fits p := by
  rw [branchSolver] at h
  split at h
  · cases h
  · cases h
  · cases h
  · next x₀ obj₀ T hroot =>
    obtain ⟨hstop, rfl, -⟩ := simplexSolver_stopsAt hroot
    split at h
    · next hint =>
      obtain ⟨-, -, -, rfl⟩ := IntegerResult.optimal.inj (Option.some.inj h)
      have hreadable := hsafe.root ⟨T, hstop, hint⟩
      exact rootFits_of_sound hstop.reached.inv (hreadable.sound hbounds hstop)
    · next hint =>
      split at h
      · cases h
      · next inc hsearch =>
        split at h
        · cases h
        · next hfound =>
          obtain ⟨-, -, -, rfl⟩ := IntegerResult.optimal.inj (Option.some.inj h)
          have hrun : (searchRoot fuel p).run solver.relaxOf p = some inc := hsearch
          rcases SearchState.run_stored hrun with ⟨hbest, -⟩ | ⟨s, R, hs, hstores, hsource⟩
          · -- nothing was stored, and the initial value counts as no incumbent
            rw [hbest] at hfound
            exact absurd (noIncumbent_initialBest p.type) hfound
          · have hnot : ¬ RootIntegral p := by
              rintro ⟨T', hT', hint'⟩
              obtain rfl := hstop.unique hT'
              exact hint hint'
            obtain ⟨hbounds', hreadable⟩ := hsafe.nodes solver rfl hnot s hs R hstores
            exact ⟨_, hsource, nodeFits_of_stores hs hstores hbounds' hreadable⟩

/-- What the Lagrangean solver hands over fits. -/
theorem StoresSafely.lagrangeanSolver_fits (hsafe : StoresSafely .lagrangeanSimplex fuel p)
    (hbounds : ∀ i < p.constraintCount, 0 ≤ p.bounds i)
    (h : lagrangeanSolver fuel p = some (.optimal x obj out src)) : src.Fits p := by
  rw [lagrangeanSolver] at h
  split at h
  · cases h
  · split at h
    · cases h
    · cases h
    · cases h
    · next x₀ obj₀ T hroot =>
      obtain ⟨hstop, rfl, -⟩ := simplexSolver_stopsAt hroot
      split at h
      · next hint =>
        obtain ⟨-, -, -, rfl⟩ := IntegerResult.optimal.inj (Option.some.inj h)
        have hintegral : RootIntegral p := ⟨T, hstop, hint⟩
        exact roundedFits_of_sound hstop.reached.inv
          ((hsafe.root hintegral).sound hbounds hstop) (hsafe.rounding rfl hintegral T hstop)
      · split at h
        · cases h
        · split at h
          · cases h
          · obtain ⟨-, -, -, rfl⟩ := IntegerResult.optimal.inj (Option.some.inj h)
            trivial

/-- **The answers of all three solvers are sound** in runs that store safely. -/
theorem integerSolver_sound_of_storesSafely
    (hbounds : ∀ i < p.constraintCount, 0 ≤ p.bounds i)
    (h : integerSolver type fuel p = some (.optimal x obj out src))
    (hsafe : StoresSafely type fuel p) : IntegerSound p x obj := by
  refine (integerSolver_sound_iff_fits h).mpr ?_
  cases type with
  | branchAndBound => exact StoresSafely.branchSolver_fits .branchAndBound hsafe hbounds h
  | branchAndCut => exact StoresSafely.branchSolver_fits .branchAndCut hsafe hbounds h
  | lagrangeanSimplex => exact hsafe.lagrangeanSolver_fits hbounds h

/-! ## Runs that can be checked -/

/-- The node passes the three tests of a solution that is stored. -/
def SearchState.storing (relax : Relax) (orig : LpProblem) (s : SearchState) : Bool :=
  match s.relaxed relax with
  | some (some R) =>
    solutionIsInteger (s.trueSol R) orig.variableCount && checkFeasibility orig (s.trueSol R) &&
      improves orig.type (s.objVal R) s.start.bestObj
  | _ => false

theorem Stores.storing (h : Stores relax orig s R) : s.storing relax orig = true := by
  simp only [SearchState.storing, h.relaxed, h.integral, h.feasible, h.improves, Bool.and_self]

/-- **A run can be checked**: a search of branch and bound has finitely many nodes, and what those
store is the read-out of a readable problem without negative bounds. -/
theorem storesSafely_of_nodes (depth turns : ℕ) (hroot : CallHas TableauReadable turns p)
    (hend : (searchRoot fuel p).EndsBy bbRelax p depth)
    (hnodes : ∀ s ∈ (searchRoot fuel p).nodesTo bbRelax p depth,
      s.storing bbRelax p = true → CallHas TableauReadable turns s.problem) :
    StoresSafely .branchAndBound fuel p where
  root := fun _ => hroot.readable
  rounding := by rintro ⟨⟩
  nodes := by
    intro solver htype _ s hs R hstores
    cases solver with
    | branchAndCut => cases htype
    | branchAndBound =>
      have hcall := hnodes s (mem_nodesTo hend hs) hstores.storing
      have hsolved : SolvedBy (BranchingSolver.branchAndBound.solved s) R :=
        relaxed_solved hstores.relaxed
      have hone : R.problem = s.problem := List.mem_singleton.mp hsolved.mem
      rw [hone]
      exact ⟨hcall.1, hcall.readable⟩

/-- Branch and bound stores `(0, 1)` first and then, below a ceil child, `(1, 0)`. -/
theorem integerSolver_sound_of_storesSafely_twoRows : ∃ x obj out src,
    integerSolver .branchAndBound 8 twoRows = some (.optimal x obj out src) ∧
      x 0 = 1 ∧ x 1 = 0 ∧ IntegerSound twoRows x obj := by
  obtain ⟨x, obj, out, src, h, hv⟩ := exists_optimal_of_integerReadings
    (show (integerSolver .branchAndBound 8 twoRows).bind (IntegerResult.readings 2) =
      some [1, 0] by decide +kernel)
  have hx : x 0 = 1 ∧ x 1 = 0 := by simpa [List.range_succ] using hv
  have hsafe : StoresSafely .branchAndBound 8 twoRows :=
    storesSafely_of_nodes 4 5 (by decide +kernel) (by decide +kernel) (by decide +kernel)
  exact ⟨x, obj, out, src, h, hx.1, hx.2,
    integerSolver_sound_of_storesSafely (by decide +kernel) h hsafe⟩

end Solver

end OvaLib
