import OvaLib.Solver.BranchAndCut
import OvaLib.Solver.Lagrangean
import OvaLib.Solver.SimplexInvariant

/-!
# What an `OPTIMAL` answer of an integer solver is worth

An integer solver can answer on four paths. Two of them hand over the read-out of a relaxation, as
it is (`Source.root`) or rounded (`Source.rounded`), without a feasibility check; the search hands
over an incumbent that passed the check but keeps the objective value of its relaxation
(`Source.incumbent`); and a rounded candidate of the subgradient loop is checked, clamped at zero
and valued by its own objective (`Source.candidate`).

So the last path is always sound, and on the other three the question is again what the read-out of
one relaxation adds to its basic point. `Source.Fits` says exactly that, path by path. Which runs
make it so is a question about the problems that are solved on the way, and not for this module.

## How a search is followed

The incumbent of a search comes from one of its nodes, and the node is remembered as a ghost. By
induction on the fuel, whatever the incumbent is, it is the checked read-out of the relaxation at
that node, shifted by the offsets, and the node's problem has the variables and the objective of the
original one. The induction needs of the relaxation procedure only that its answers are read-outs of
tableaus with the invariant (`RelaxSpec`), which is how one proof serves both searches.

## Main results

* `searchSolve_inv` — the incumbent of a search is a checked, shifted read-out of one relaxation
* `lrLoop_inv` — the candidate of the subgradient loop is sound
* `integerSolver_sound_iff_fits` — soundness of an answer, measured at its source
-/

namespace OvaLib

namespace Solver

open Finset
open Foundation (scanMin scanMinFrom scanMin_eq_some)
open OrderDual (toDual ofDual)

variable {p : LpProblem}

/-- An integer answer is sound: integral and non-negative up to `1e-6`, feasible up to `1e-6`, and
worth the stored objective. -/
structure IntegerSound (p : LpProblem) (x : ℕ → ℚ) (obj : ℚ) : Prop where
  integral : ∀ j < p.variableCount, ∃ k : ℤ, |x j - k| ≤ intTol
  nonneg : ∀ j < p.variableCount, -intTol ≤ x j
  feasible : ∀ i < p.constraintCount, p.lhs i x ≤ p.bounds i + intTol
  objective : p.objectiveAt x = obj

theorem exists_int_of_solutionIsInteger {x : ℕ → ℚ} {n : ℕ} (h : solutionIsInteger x n = true) :
    ∀ j < n, ∃ k : ℤ, |x j - k| ≤ intTol := fun j hj =>
  ⟨cRound (x j), le_of_lt (solutionIsInteger_iff.mp h j hj)⟩

/-! ## The conditions -/

/-- The value the relaxation's tableau yields for variable `j`: basic value plus phantom. -/
def Tableau.readout (T : Tableau) (j : ℕ) : ℚ := T.basicValue j + T.phantom j

/-- A root relaxation taken as it is: its phantoms fit in the slack up to the tolerance and cost
nothing, and no value is below `-1e-6`. -/
structure RootFits (p : LpProblem) (T : Tableau) : Prop where
  nonneg : ∀ j < p.variableCount, -intTol ≤ T.readout j
  slack : ∀ i < p.constraintCount,
    p.lhs i T.phantom ≤ T.basicValue (p.variableCount + i) + intTol
  cost : p.objectiveAt T.phantom = 0

/-- The node of an incumbent: its phantoms cost nothing and no shifted value is below `-1e-6`. -/
structure NodeFits (p : LpProblem) (node : Node) : Prop where
  nonneg : ∀ j < p.variableCount,
    -intTol ≤ node.relaxation.tableau.readout j + node.offsets j
  cost : p.objectiveAt node.relaxation.tableau.phantom = 0

/-- What rounding adds to the basic value of variable `j`. -/
def Tableau.roundingShift (T : Tableau) (j : ℕ) : ℚ := cRound (T.readout j) - T.basicValue j

/-- A rounded relaxation: no value rounds below zero, and phantoms and rounding together fit in
the slack up to the tolerance. -/
structure RoundedFits (p : LpProblem) (T : Tableau) : Prop where
  nonneg : ∀ j < p.variableCount, 0 ≤ cRound (T.readout j)
  slack : ∀ i < p.constraintCount,
    p.lhs i T.roundingShift ≤ T.basicValue (p.variableCount + i) + intTol

/-- **The condition, path by path.** -/
def Source.Fits (p : LpProblem) : Source → Prop
  | .root T => RootFits p T
  | .incumbent node => ∃ nd, node = some nd ∧ NodeFits p nd
  | .rounded T => RoundedFits p T
  | .candidate => True

/-! ## The root relaxation -/

theorem TableauInv.integerSound_readColumn_iff {T : Tableau} (hT : TableauInv p T)
    (hint : solutionIsInteger T.readColumn p.variableCount = true) :
    IntegerSound p T.readColumn (storedObjective p T) ↔ RootFits p T := by
  constructor
  · rintro ⟨-, hnonneg, hfeas, hobj⟩
    refine ⟨fun j hj => ?_, fun i hi => ?_, ?_⟩
    · have := hnonneg j hj
      rwa [hT.readColumn_eq] at this
    · have := hfeas i hi
      rw [hT.lhs_readColumn hi] at this
      linarith
    · rw [hT.objectiveAt_readColumn] at hobj
      linarith
  · rintro ⟨hnonneg, hslack, hcost⟩
    refine ⟨exists_int_of_solutionIsInteger hint, fun j hj => ?_, fun i hi => ?_, ?_⟩
    · rw [hT.readColumn_eq]; exact hnonneg j hj
    · rw [hT.lhs_readColumn hi]
      have := hslack i hi
      linarith
    · rw [hT.objectiveAt_readColumn, hcost, add_zero]

/-- An integer is above `-1e-6` exactly when it is not negative. -/
theorem neg_intTol_le_intCast_iff (k : ℤ) : -intTol ≤ (k : ℚ) ↔ 0 ≤ k := by
  constructor
  · intro h
    by_contra hneg
    have h1 : (k : ℚ) ≤ -1 := by exact_mod_cast Int.le_sub_one_of_lt (not_le.mp hneg)
    have h2 : intTol < 1 := by norm_num [intTol]
    linarith
  · intro h
    have h1 : (0 : ℚ) ≤ k := by exact_mod_cast h
    have h2 : 0 < intTol := by norm_num [intTol]
    linarith

theorem TableauInv.integerSound_rounded_iff {T : Tableau} (hT : TableauInv p T) :
    IntegerSound p (fun j => cRound (T.readColumn j))
      (p.objectiveAt fun j => cRound (T.readColumn j)) ↔ RoundedFits p T := by
  have hread : T.readColumn = T.readout := funext hT.readColumn_eq
  have hlhs : ∀ i < p.constraintCount, p.lhs i (fun j => cRound (T.readout j)) =
      p.bounds i + (p.lhs i T.roundingShift - T.basicValue (p.variableCount + i)) := by
    intro i hi
    rw [← hT.lhs_basicValue hi, p.lhs_congr i (y := fun j => T.basicValue j + T.roundingShift j)
      fun j _ => by simp [Tableau.roundingShift], p.lhs_add]
    ring
  rw [hread]
  constructor
  · rintro ⟨-, hnonneg, hfeas, -⟩
    refine ⟨fun j hj => (neg_intTol_le_intCast_iff _).mp (hnonneg j hj), fun i hi => ?_⟩
    have := hfeas i hi
    rw [hlhs i hi] at this
    linarith
  · rintro ⟨hnonneg, hslack⟩
    refine ⟨fun j _ => ⟨cRound (T.readout j), by norm_num [intTol]⟩,
      fun j hj => (neg_intTol_le_intCast_iff _).mpr (hnonneg j hj), fun i hi => ?_, rfl⟩
    rw [hlhs i hi]
    have := hslack i hi
    linarith

/-! ## The search

The invariant has an incumbent with its node, or nothing that was found yet. -/

/-- A subproblem of the search: the variables, the objective and the direction of the original,
with `objOffset` the value of the offsets under the original objective. -/
structure Subproblem (p q : LpProblem) (offsets : ℕ → ℚ) (objOffset : ℚ) : Prop where
  variableCount : q.variableCount = p.variableCount
  objective : q.objective = p.objective
  type : q.type = p.type
  offset : objOffset = p.objectiveAt offsets

theorem Subproblem.root (p : LpProblem) : Subproblem p p.cloneProblem (fun _ => 0) 0 :=
  ⟨rfl, rfl, rfl, by simp [LpProblem.objectiveAt]⟩

/-- The floor child only gains a row. -/
theorem Subproblem.addConstraint {q : LpProblem} {offsets : ℕ → ℚ} {objOffset : ℚ}
    (h : Subproblem p q offsets objOffset) (row : ℕ → ℚ) (b : ℚ) :
    Subproblem p (q.addConstraint row b) offsets objOffset :=
  ⟨h.variableCount, h.objective, h.type, h.offset⟩

/-- The ceil child moves the origin of one variable, and its constant follows. -/
theorem Subproblem.cloneWithLowerBound {q : LpProblem} {offsets : ℕ → ℚ} {objOffset : ℚ}
    (h : Subproblem p q offsets objOffset) {j : ℕ} (hj : j < p.variableCount) (lb : ℚ) :
    Subproblem p (q.cloneWithLowerBound j (lb - offsets j)).1 (Function.update offsets j lb)
      (objOffset + (q.cloneWithLowerBound j (lb - offsets j)).2) where
  variableCount := h.variableCount
  objective := h.objective
  type := h.type
  offset := by
    have hsplit : ∀ y : ℕ → ℚ, p.objectiveAt y =
        p.objective j * y j + ∑ k ∈ (range p.variableCount).erase j, p.objective k * y k :=
      fun y => (add_sum_erase _ (fun k => p.objective k * y k) (mem_range.mpr hj)).symm
    have hrest : ∑ k ∈ (range p.variableCount).erase j,
        p.objective k * Function.update offsets j lb k =
          ∑ k ∈ (range p.variableCount).erase j, p.objective k * offsets k :=
      sum_congr rfl fun k hk => by rw [Function.update_of_ne (ne_of_mem_erase hk)]
    rw [hsplit, hrest, h.offset, hsplit offsets]
    simp only [LpProblem.cloneWithLowerBound, h.objective, Function.update_self]
    ring

/-- A relaxation of `q`: the read-out of a reachable tableau, for a problem that may have more
rows than `q` but has its variables, objective and direction. -/
structure RelaxationOf (q : LpProblem) (R : Relaxation) : Prop where
  variableCount : R.problem.variableCount = q.variableCount
  objective : R.problem.objective = q.objective
  type : R.problem.type = q.type
  tableau : TableauInv R.problem R.tableau
  solution : R.solution = R.tableau.readColumn
  objectiveValue : R.objectiveValue = storedObjective R.problem R.tableau

/-- What is asked of a relaxation procedure. -/
def RelaxSpec (relax : ℕ → LpProblem → (ℕ → ℚ) → Option (Option Relaxation)) : Prop :=
  ∀ fuel q offsets R, relax fuel q offsets = some (some R) → RelaxationOf q R

/-- The incumbent is a checked, shifted read-out of the relaxation at its node. -/
structure IncumbentOk (p : LpProblem) (inc : Incumbent) (node : Node) : Prop where
  source : inc.source = some node
  sub : Subproblem p node.relaxation.problem node.offsets node.objOffset
  tableau : TableauInv node.relaxation.problem node.relaxation.tableau
  bestSol : inc.bestSol = fun j => node.relaxation.tableau.readColumn j + node.offsets j
  bestObj : inc.bestObj =
    storedObjective node.relaxation.problem node.relaxation.tableau + node.objOffset
  integral : solutionIsInteger inc.bestSol p.variableCount = true
  /-- The check against the original problem. -/
  feasible : checkFeasibility p inc.bestSol = true

/-- The invariant of the search: nothing found yet, or an incumbent with its node. -/
def IncumbentInv (p : LpProblem) (inc : Incumbent) : Prop :=
  inc.bestObj = initialBest p.type ∨ ∃ node, IncumbentOk p inc node

/-- What the branching scan compares: the distances above the tolerance, the larger the better. -/
def branchingScore (x : ℕ → ℚ) (i : ℕ) : Option ℚᵒᵈ :=
  if intTol < fractionality (x i) then some (toDual (fractionality (x i))) else none

theorem branchingScore_eq_some_iff {x : ℕ → ℚ} {i : ℕ} {d : ℚᵒᵈ} :
    branchingScore x i = some d ↔
      intTol < fractionality (x i) ∧ toDual (fractionality (x i)) = d := by
  rw [branchingScore]
  split
  · next hlt => simp [hlt]
  · next hle => simp [hle]

/-- **The branching scan is the scan for the first best candidate.** -/
theorem findBranchingVariable_eq_scanMin (x : ℕ → ℚ) (n : ℕ) :
    findBranchingVariable x n = scanMin (branchingScore x) (toDual 0) n := by
  have hstate : ∀ m, (List.range m).foldl (fun (best : ℚ × Option ℕ) i =>
      if intTol < fractionality (x i) ∧ best.1 < fractionality (x i) then
        (fractionality (x i), some i)
      else best) (0, none) =
        (ofDual (scanMinFrom (branchingScore x) (toDual 0) m).1,
          (scanMinFrom (branchingScore x) (toDual 0) m).2) := by
    intro m
    induction m with
    | zero => rfl
    | succ m ih =>
      rw [List.range_succ, List.foldl_append, ih, List.foldl_cons, List.foldl_nil, scanMinFrom,
        branchingScore]
      by_cases htol : intTol < fractionality (x m)
      · have hdual : toDual (fractionality (x m)) <
            (scanMinFrom (branchingScore x) (toDual 0) m).1 ↔
              ofDual (scanMinFrom (branchingScore x) (toDual 0) m).1 < fractionality (x m) :=
          Iff.rfl
        simp only [htol, true_and, if_true, hdual]
        split <;> rfl
      · simp only [htol, false_and, if_false]
  rw [findBranchingVariable, hstate, scanMin]

/-- The branching variable is one of the problem's variables, and its value is off the grid. -/
theorem findBranchingVariable_some {x : ℕ → ℚ} {n j : ℕ}
    (h : findBranchingVariable x n = some j) : j < n ∧ intTol < fractionality (x j) := by
  rw [findBranchingVariable_eq_scanMin] at h
  obtain ⟨hj, d, hd, -, -⟩ := scanMin_eq_some h
  exact ⟨hj, (branchingScore_eq_some_iff.mp hd).1⟩

theorem findBranchingVariable_lt {x : ℕ → ℚ} {n j : ℕ} (h : findBranchingVariable x n = some j) :
    j < n :=
  (findBranchingVariable_some h).1

/-- **The search keeps its invariant.** By induction on the fuel: a node can replace the
incumbent by its own checked read-out, and otherwise only its two children touch it. -/
theorem searchSolve_inv {relax : ℕ → LpProblem → (ℕ → ℚ) → Option (Option Relaxation)}
    (hrelax : RelaxSpec relax) {fuel : ℕ} {q : LpProblem} {offsets : ℕ → ℚ} {objOffset : ℚ}
    {inc inc' : Incumbent} (hsub : Subproblem p q offsets objOffset) (hinc : IncumbentInv p inc)
    (h : searchSolve relax p fuel q offsets objOffset inc = some inc') : IncumbentInv p inc' := by
  induction fuel generalizing q offsets objOffset inc inc' with
  | zero => simp [searchSolve] at h
  | succ fuel ih =>
    have hnext : IncumbentInv p { inc with nodes := inc.nodes + 1 } := by
      rcases hinc with h0 | ⟨node, hok⟩
      · exact Or.inl h0
      · exact Or.inr ⟨node, hok.source, hok.sub, hok.tableau, hok.bestSol, hok.bestObj,
          hok.integral, hok.feasible⟩
    simp only [searchSolve] at h
    split at h
    · exact Option.some.inj h ▸ hinc
    · cases hr : relax fuel q offsets with
      | none => rw [hr] at h; simp at h
      | some res =>
        cases res with
        | none => rw [hr] at h; exact Option.some.inj h ▸ hnext
        | some R =>
          have hR := hrelax fuel q offsets R hr
          rw [hr] at h
          simp only at h
          split at h
          · exact Option.some.inj h ▸ hnext
          · split at h
            · -- the read-out is integral and feasible
              rename_i hcheck
              rw [Bool.and_eq_true] at hcheck
              split at h
              · refine Option.some.inj h ▸ Or.inr ⟨⟨R, offsets, objOffset⟩, rfl, ?_, hR.tableau,
                  ?_, ?_, hcheck.1, hcheck.2⟩
                · exact ⟨hR.variableCount.trans hsub.variableCount,
                    hR.objective.trans hsub.objective, hR.type.trans hsub.type, hsub.offset⟩
                · simp only [hR.solution]
                · simp only [hR.objectiveValue]
              · exact Option.some.inj h ▸ hnext
            · cases hb : findBranchingVariable (fun i => R.solution i + offsets i)
                  p.variableCount with
              | none => rw [hb] at h; exact Option.some.inj h ▸ hnext
              | some j =>
                rw [hb] at h
                simp only at h
                split at h
                · simp at h
                · rename_i inc₁ hfloor
                  -- the floor child ran, or was skipped
                  have hinc₁ : IncumbentInv p inc₁ := by
                    split at hfloor
                    · exact ih (hsub.addConstraint _ _) hnext hfloor
                    · exact Option.some.inj hfloor ▸ hnext
                  split at h
                  · exact ih (hsub.cloneWithLowerBound (findBranchingVariable_lt hb) _) hinc₁ h
                  · exact Option.some.inj h ▸ hinc₁

/-- The incumbent is sound exactly when its node fits: integrality and feasibility were
checked, so non-negativity and the objective value are what is left. -/
theorem IncumbentOk.integerSound_iff {inc : Incumbent} {node : Node} (h : IncumbentOk p inc node) :
    IntegerSound p inc.bestSol inc.bestObj ↔ NodeFits p node := by
  have hobjAt : ∀ y, node.relaxation.problem.objectiveAt y = p.objectiveAt y := fun y => by
    simp only [LpProblem.objectiveAt, h.sub.variableCount, h.sub.objective]
  have hvalue : p.objectiveAt inc.bestSol =
      inc.bestObj + p.objectiveAt node.relaxation.tableau.phantom := by
    rw [h.bestSol, p.objectiveAt_add, ← hobjAt, h.tableau.objectiveAt_readColumn, hobjAt,
      h.bestObj, h.sub.offset]
    ring
  constructor
  · rintro ⟨-, hnonneg, -, hobj⟩
    refine ⟨fun j hj => ?_, by linarith⟩
    have := hnonneg j hj
    rw [h.bestSol] at this
    simpa only [h.tableau.readColumn_eq, Tableau.readout] using this
  · rintro ⟨hnonneg, hcost⟩
    refine ⟨exists_int_of_solutionIsInteger h.integral, fun j hj => ?_,
      checkFeasibility_iff.mp h.feasible, by rw [hvalue, hcost, add_zero]⟩
    rw [h.bestSol]
    simpa only [h.tableau.readColumn_eq, Tableau.readout] using hnonneg j hj

/-- A search that ends below the `DBL_MAX` test has an incumbent. -/
theorem noIncumbent_initialBest (type : ProblemType) :
    noIncumbent type (initialBest type) = true := by
  cases type <;> simp [noIncumbent, initialBest]

/-- **The driver of branch and bound and of branch and cut.** -/
theorem branchSolver_sound_iff {relax : ℕ → LpProblem → (ℕ → ℚ) → Option (Option Relaxation)}
    (hrelax : RelaxSpec relax) {fuel : ℕ} {x : ℕ → ℚ} {obj : ℚ} {out : OutMatrix} {src : Source}
    (h : branchSolver relax fuel p = some (.optimal x obj out src)) :
    IntegerSound p x obj ↔ src.Fits p := by
  rw [branchSolver] at h
  split at h
  · simp at h
  · simp at h
  · simp at h
  · rename_i x₀ obj₀ T hroot
    obtain ⟨hT, rfl, rfl⟩ := simplexSolver_eq_optimal hroot
    split at h
    · rename_i hint
      simp only [Option.some.injEq, IntegerResult.optimal.injEq] at h
      obtain ⟨rfl, rfl, -, rfl⟩ := h
      exact hT.integerSound_readColumn_iff hint
    · split at h
      · simp at h
      · rename_i inc hsearch
        have hinv := searchSolve_inv hrelax (Subproblem.root p) (Or.inl rfl) hsearch
        split at h
        · simp at h
        · rename_i hfound
          simp only [Option.some.injEq, IntegerResult.optimal.injEq] at h
          obtain ⟨rfl, rfl, -, rfl⟩ := h
          rcases hinv with h0 | ⟨node, hok⟩
          · exact absurd (h0 ▸ noIncumbent_initialBest p.type) hfound
          · rw [hok.integerSound_iff]
            constructor
            · exact fun hf => ⟨node, hok.source, hf⟩
            · rintro ⟨nd, hnd, hf⟩
              rw [hok.source] at hnd
              exact Option.some.inj hnd ▸ hf

theorem bbRelax_spec : RelaxSpec bbRelax := by
  intro fuel q offsets R h
  rw [bbRelax] at h
  split at h
  · simp at h
  · rename_i x obj T hrun
    obtain ⟨hT, rfl, rfl⟩ := simplexSolver_eq_optimal hrun
    obtain rfl := Option.some.inj (Option.some.inj h)
    exact ⟨rfl, rfl, rfl, hT, rfl, rfl⟩
  · simp at h

/-- A turn of the loop of `add_gomory_cuts`. -/
def cutStep (T : Tableau) (n : ℕ) (acc : LpProblem × ℕ) (i : ℕ) : LpProblem × ℕ :=
  if acc.2 < maxCuts then
    match gomoryCut T n i with
    | some cut => (acc.1.addConstraint cut.1 cut.2, acc.2 + 1)
    | none => acc
  else acc

theorem addGomoryCuts_eq (q : LpProblem) (T : Tableau) (n : ℕ) :
    addGomoryCuts q T n = (List.range T.rows).foldl (cutStep T n) (q, 0) := rfl

theorem cutStep_fields (T : Tableau) (n : ℕ) (acc : LpProblem × ℕ) (i : ℕ) :
    (cutStep T n acc i).1.variableCount = acc.1.variableCount ∧
      (cutStep T n acc i).1.objective = acc.1.objective ∧
      (cutStep T n acc i).1.type = acc.1.type := by
  rw [cutStep]
  split
  · cases gomoryCut T n i with
    | some cut => exact ⟨rfl, rfl, rfl⟩
    | none => exact ⟨rfl, rfl, rfl⟩
  · exact ⟨rfl, rfl, rfl⟩

/-- Cuts are added rows: variables, objective and direction stay. -/
theorem addGomoryCuts_fields (q : LpProblem) (T : Tableau) (n : ℕ) :
    (addGomoryCuts q T n).1.variableCount = q.variableCount ∧
      (addGomoryCuts q T n).1.objective = q.objective ∧ (addGomoryCuts q T n).1.type = q.type := by
  rw [addGomoryCuts_eq]
  refine List.foldlRecOn (motive := fun acc : LpProblem × ℕ => acc.1.variableCount =
    q.variableCount ∧ acc.1.objective = q.objective ∧ acc.1.type = q.type) _ _ ⟨rfl, rfl, rfl⟩ ?_
  intro acc h i _
  obtain ⟨hvars, hobj, htype⟩ := cutStep_fields T n acc i
  rw [hvars, hobj, htype]
  exact h

theorem cutLoop_spec {fuel n : ℕ} {offsets : ℕ → ℚ} {q : LpProblem} {R : Relaxation} :
    ∀ (rounds : ℕ) (cutProblem : LpProblem) (last : Option Relaxation),
      cutProblem.variableCount = q.variableCount ∧ cutProblem.objective = q.objective ∧
        cutProblem.type = q.type →
      (∀ L, last = some L → RelaxationOf q L) →
      cutLoop fuel n offsets rounds cutProblem last = some (some R) → RelaxationOf q R := by
  intro rounds
  induction rounds with
  | zero => intro cutProblem last _ hlast h; exact hlast R (Option.some.inj h)
  | succ rounds ih =>
    intro cutProblem last hq _ h
    simp only [cutLoop] at h
    split at h
    · simp at h
    · rename_i x obj T hrun
      obtain ⟨hT, rfl, rfl⟩ := simplexSolver_eq_optimal hrun
      have hnew : RelaxationOf q ⟨cutProblem, T.readColumn, storedObjective cutProblem T, T⟩ :=
        ⟨hq.1, hq.2.1, hq.2.2, hT, rfl, rfl⟩
      split at h
      · exact Option.some.inj (Option.some.inj h) ▸ hnew
      · split at h
        · exact Option.some.inj (Option.some.inj h) ▸ hnew
        · obtain ⟨h1, h2, h3⟩ := addGomoryCuts_fields cutProblem T n
          refine ih _ _ ⟨h1.trans hq.1, h2.trans hq.2.1, h3.trans hq.2.2⟩ ?_ h
          exact fun L hL => Option.some.inj hL ▸ hnew
    · simp at h

theorem bcRelax_spec : RelaxSpec bcRelax := fun _ q _ _ h =>
  cutLoop_spec maxCuts q.cloneProblem none ⟨rfl, rfl, rfl⟩ (by simp) h

/-! ## The subgradient loop

A candidate is kept only if it passes the check and is better by its own objective. -/

/-- The best candidate is sound, once there is one. -/
def CandidateInv (p : LpProblem) (s : LrState) : Prop :=
  s.bestObj = initialBest p.type ∨ IntegerSound p s.bestSol s.bestObj

/-- A rounded vector is integral and not negative. -/
theorem lrRounded_int (f : ℚ → ℤ) (x : ℕ → ℚ) (j : ℕ) :
    0 ≤ lrRounded f x j ∧ ∃ k : ℤ, |lrRounded f x j - k| ≤ intTol := by
  rw [lrRounded]
  split_ifs with h
  · exact ⟨le_rfl, 0, by norm_num [intTol]⟩
  · exact ⟨not_lt.mp h, f (x j), by norm_num [intTol]⟩

theorem lrConsider_inv {s : LrState} (hs : CandidateInv p s) (f : ℚ → ℤ) (x : ℕ → ℚ) :
    CandidateInv p (lrConsider p s (lrRounded f x)) := by
  rw [lrConsider]
  split_ifs with h
  · rw [Bool.and_eq_true] at h
    refine Or.inr ⟨fun j _ => (lrRounded_int f x j).2, fun j _ => ?_,
      checkFeasibility_iff.mp h.1, rfl⟩
    exact le_trans (by norm_num [intTol]) (lrRounded_int f x j).1
  · exact hs

theorem lrAdjustStep_best (iter : ℕ) (bound : ℚ) (s : LrState) :
    (lrAdjustStep p iter bound s).bestObj = s.bestObj ∧
      (lrAdjustStep p iter bound s).bestSol = s.bestSol := by
  simp only [lrAdjustStep]
  split_ifs <;> exact ⟨rfl, rfl⟩

theorem lrIterate_inv {s : LrState} (hs : CandidateInv p s) (iter : ℕ) (x : ℕ → ℚ) (obj : ℚ) :
    CandidateInv p (lrIterate p iter x obj s).2 := by
  have hcons := lrConsider_inv (lrConsider_inv hs cRound x) (fun v => ⌊v⌋) x
  have hadj : CandidateInv p (lrAdjustStep p iter
      (obj + ∑ i ∈ range p.constraintCount, s.lambda i * p.bounds i)
      (lrConsider p (lrConsider p s (lrRounded cRound x)) (lrRounded (fun v => ⌊v⌋) x))) := by
    obtain ⟨h1, h2⟩ := lrAdjustStep_best (p := p) iter
      (obj + ∑ i ∈ range p.constraintCount, s.lambda i * p.bounds i)
      (lrConsider p (lrConsider p s (lrRounded cRound x)) (lrRounded (fun v => ⌊v⌋) x))
    rw [CandidateInv]
    rw [h1, h2]
    exact hcons
  simp only [lrIterate]
  split_ifs <;> exact hadj

/-- **The subgradient loop only keeps sound candidates.** -/
theorem lrLoop_inv {fuel : ℕ} : ∀ (left : ℕ) {s s' : LrState}, CandidateInv p s →
    lrLoop fuel p left s = some s' → CandidateInv p s' := by
  intro left
  induction left with
  | zero => intro s s' hs h; exact Option.some.inj h ▸ hs
  | succ left ih =>
    intro s s' hs h
    rw [lrLoop] at h
    split at h
    · simp at h
    · rename_i x obj T _
      have hit := lrIterate_inv hs (lrMaxIter - (left + 1)) x obj
      split at h
      · rename_i s₁ hs₁
        rw [hs₁] at hit
        exact Option.some.inj h ▸ hit
      · rename_i s₁ hs₁
        rw [hs₁] at hit
        exact ih hit h
    · exact Option.some.inj h ▸ hs

theorem lagrangeanSolver_sound_iff {fuel : ℕ} {x : ℕ → ℚ} {obj : ℚ} {out : OutMatrix}
    {src : Source} (h : lagrangeanSolver fuel p = some (.optimal x obj out src)) :
    IntegerSound p x obj ↔ src.Fits p := by
  rw [lagrangeanSolver] at h
  split at h
  · simp at h
  · split at h
    · simp at h
    · simp at h
    · simp at h
    · rename_i x₀ obj₀ T hroot
      obtain ⟨hT, rfl, -⟩ := simplexSolver_eq_optimal hroot
      split at h
      · simp only [Option.some.injEq, IntegerResult.optimal.injEq] at h
        obtain ⟨rfl, rfl, -, rfl⟩ := h
        exact hT.integerSound_rounded_iff
      · split at h
        · simp at h
        · rename_i s hloop
          split at h
          · simp at h
          · rename_i hfound
            simp only [Option.some.injEq, IntegerResult.optimal.injEq] at h
            obtain ⟨rfl, rfl, -, rfl⟩ := h
            rcases lrLoop_inv lrMaxIter (Or.inl rfl) hloop with h0 | hs
            · exact absurd (h0 ▸ noIncumbent_initialBest p.type) hfound
            · exact iff_of_true hs trivial

/-! ## All three solvers -/

/-- The integer solver types of `SolverType`. -/
inductive IntegerSolverType
  | branchAndCut
  | branchAndBound
  | lagrangeanSimplex
  deriving DecidableEq, Repr

/-- `solver_dispatch` for the integer solver types. -/
def integerSolver : IntegerSolverType → ℕ → LpProblem → Option IntegerResult
  | .branchAndCut => branchAndCutSolver
  | .branchAndBound => branchAndBoundSolver
  | .lagrangeanSimplex => lagrangeanSolver

/-- **Soundness of an answer**, measured at its source. -/
theorem integerSolver_sound_iff_fits {type : IntegerSolverType} {fuel : ℕ} {x : ℕ → ℚ}
    {obj : ℚ} {out : OutMatrix} {src : Source}
    (h : integerSolver type fuel p = some (.optimal x obj out src)) :
    IntegerSound p x obj ↔ src.Fits p := by
  cases type with
  | branchAndCut => exact branchSolver_sound_iff bcRelax_spec h
  | branchAndBound => exact branchSolver_sound_iff bbRelax_spec h
  | lagrangeanSimplex => exact lagrangeanSolver_sound_iff h

/-- What a caller sees of an integer result on the first `n` variables. -/
def IntegerResult.readings (n : ℕ) : IntegerResult → Option (List ℚ)
  | .optimal x _ _ _ => some ((List.range n).map x)
  | .stopped _ => none

theorem exists_optimal_of_integerReadings {res : Option IntegerResult} {n : ℕ} {v : List ℚ}
    (h : res.bind (IntegerResult.readings n) = some v) :
    ∃ x obj out src, res = some (.optimal x obj out src) ∧ (List.range n).map x = v := by
  match res, h with
  | some (.optimal x obj out src), h => exact ⟨x, obj, out, src, rfl, Option.some.inj h⟩

/-- All three solvers read the duplicated column twice. -/
theorem integerSolver_readings_duplicateColumns (type : IntegerSolverType) :
    (integerSolver type 2 duplicateColumns).bind (IntegerResult.readings 2) = some [1, 1] := by
  cases type <;> decide +kernel

/-- All three solvers answer `(1, 1)` for `x₀ + x₁ ≤ 1`. -/
theorem integerSolver_duplicateColumns :
    (∀ i < duplicateColumns.constraintCount, 0 ≤ duplicateColumns.bounds i) ∧
      ∀ type, ∃ x obj out src,
        integerSolver type 2 duplicateColumns = some (.optimal x obj out src) ∧
          ¬ IntegerSound duplicateColumns x obj := by
  refine ⟨by decide +kernel, fun type => ?_⟩
  obtain ⟨x, obj, out, src, h, hv⟩ :=
    exists_optimal_of_integerReadings (integerSolver_readings_duplicateColumns type)
  refine ⟨x, obj, out, src, h, fun hs => ?_⟩
  have hx : x 0 = 1 ∧ x 1 = 1 := by simpa [List.range_succ] using hv
  have hrow := hs.feasible 0 (by decide)
  rw [duplicateColumns_lhs, duplicateColumns_bounds, hx.1, hx.2] at hrow
  exact absurd hrow (by norm_num [intTol])

end Solver

end OvaLib
