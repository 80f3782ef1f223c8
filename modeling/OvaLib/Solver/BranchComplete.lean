import OvaLib.Solver.IntegerSound
import OvaLib.Solver.SimplexVerdict

/-!
# When the branching solvers miss nothing

A node of the search stands for the integer points that its shifted problem still contains. The
search misses a point in three ways. A node can be *dropped*: its relaxation does not end at
`OPTIMAL`, or its solution is neither accepted nor has a variable to branch on. The bound of a
relaxation can be too low, when the pivot loop stops with a reduced cost between `-1e-9` and zero.
And a cut can exclude a point of the node. In a run without these, every integer point of the
problem is passed down to a child until some node's bound covers it.

The first way is where shifted copies end: the substitution `x_j = x_j' + lb` makes right-hand sides
negative, and on these the simplex solver answers `UNBOUNDED`, or `OPTIMAL` with a point that is not
feasible. The cuts of `add_gomory_cuts` are added with `≤` although the inequality they come from is
one with `≥`.

## The shape of the argument

One call of the search has six outcomes, and `NodeOutcome` lists them once with what each means for
the incumbent and the calls it makes. Two runs of induction use that list. The first is about the
incumbent: it only gets better, so a point that is covered by it stays covered. The second is about
a point: if it is at a node that keeps its points, it is covered at the end, since it is at one of
the two children, or no better than the bound that pruned the node or the solution that was stored.

## Main results

* `SearchState.nodeOutcome` — what one node of the search can do
* `SearchState.run_grows`, `SearchState.run_covers` — what a whole search does
* `branchingSolver_missesNothing` — both solvers, in runs whose nodes keep their points
* `branchingSolver_lostChild` — a run that loses a child
-/

namespace OvaLib

namespace Solver

open Finset Foundation Relation

/-! ## Values -/

section

variable {type : ProblemType} {a b : ℚ}

theorem oriented_add (type : ProblemType) (a b : ℚ) :
    oriented type (a + b) = oriented type a + oriented type b := by
  cases type with
  | max => rfl
  | min => exact neg_add a b

theorem improves_iff : improves type a b = true ↔ oriented type b < oriented type a := by
  cases type <;> simp [improves, oriented]

theorem oriented_le_of_isPruned (h : isPruned type a b = true) :
    oriented type a ≤ oriented type b := by
  cases type with
  | max =>
    simp only [isPruned, Bool.and_eq_true, decide_eq_true_eq] at h
    exact h.1
  | min =>
    simp only [isPruned, Bool.and_eq_true, decide_eq_true_eq] at h
    exact neg_le_neg h.1

theorem noIncumbent_iff : noIncumbent type b = true ↔ oriented type b ≤ -dblMax + 1 := by
  cases type with
  | max => simp [noIncumbent, oriented]
  | min =>
    simp only [noIncumbent, oriented, decide_eq_true_eq]
    constructor <;> intro h <;> linarith

end

/-! ## The points of a node

In the variables of the original problem, with and without integrality. -/

/-- A non-negative integer point that satisfies all constraints. -/
def IntegerPoint (p : LpProblem) (x : ℕ → ℕ) : Prop :=
  ∀ i < p.constraintCount, p.lhs i (fun j => (x j : ℚ)) ≤ p.bounds i

/-- An integer point that a shifted problem still contains. -/
structure NodePoint (q : LpProblem) (offsets : ℕ → ℚ) (x : ℕ → ℕ) : Prop where
  above : ∀ j < q.variableCount, offsets j ≤ x j
  row : ∀ i < q.constraintCount, q.lhs i (fun j => x j - offsets j) ≤ q.bounds i

variable {p q : LpProblem} {offsets : ℕ → ℚ} {x : ℕ → ℕ} {j : ℕ}

theorem IntegerPoint.nodePoint (hx : IntegerPoint p x) :
    NodePoint p.cloneProblem (fun _ => 0) x where
  above := fun j _ => by simp
  row := fun i hi => by
    simp only [sub_zero]
    exact hx i hi

theorem NodePoint.isFeasible (hx : NodePoint q offsets x) :
    IsFeasible q fun j => x j - offsets j where
  nonneg := fun j hj => sub_nonneg.mpr (hx.above j hj)
  row := hx.row

theorem lhs_unitRow (q : LpProblem) (b : ℚ) (y : ℕ → ℚ) (hj : j < q.variableCount) :
    (q.addConstraint (LpProblem.unitRow j) b).lhs q.constraintCount y = y j := by
  simp only [LpProblem.lhs, LpProblem.addConstraint, Function.update_self]
  rw [sum_eq_single_of_mem j (mem_range.mpr hj)]
  · simp [LpProblem.unitRow]
  · intro k _ hk
    simp [LpProblem.unitRow, hk]

theorem lhs_addConstraint_of_ne (q : LpProblem) (row : ℕ → ℚ) (b : ℚ) (y : ℕ → ℚ) {i : ℕ}
    (hi : i ≠ q.constraintCount) : (q.addConstraint row b).lhs i y = q.lhs i y := by
  simp only [LpProblem.lhs, LpProblem.addConstraint, Function.update_of_ne hi]

/-- Moving the origin of one variable. -/
theorem lhs_sub_update (q : LpProblem) (offsets : ℕ → ℚ) (i : ℕ) (y : ℕ → ℚ)
    (hj : j < q.variableCount) (lb : ℚ) :
    q.lhs i (fun k => y k - Function.update offsets j lb k) =
      q.lhs i (fun k => y k - offsets k) - q.constraints i j * (lb - offsets j) := by
  have hsplit : (fun k => y k - Function.update offsets j lb k) =
      fun k => (y k - offsets k) + if k = j then offsets j - lb else 0 := by
    funext k
    by_cases hk : k = j
    · subst hk
      simp
    · simp [hk]
  have hsingle : q.lhs i (fun k => if k = j then offsets j - lb else 0) =
      q.constraints i j * (offsets j - lb) := by
    rw [LpProblem.lhs, sum_eq_single_of_mem j (mem_range.mpr hj)]
    · rw [if_pos rfl]
    · intro k _ hk
      rw [if_neg hk, mul_zero]
  rw [hsplit, LpProblem.lhs_add, hsingle]
  ring

/-- A point, in the variables of the original problem, that a shifted problem still contains. -/
structure ShiftedFeasible (q : LpProblem) (offsets y : ℕ → ℚ) : Prop where
  above : ∀ j < q.variableCount, offsets j ≤ y j
  row : ∀ i < q.constraintCount, q.lhs i (fun j => y j - offsets j) ≤ q.bounds i

theorem nodePoint_iff :
    NodePoint q offsets x ↔ ShiftedFeasible q offsets fun j => (x j : ℚ) :=
  ⟨fun h => ⟨h.above, h.row⟩, fun h => ⟨h.above, h.row⟩⟩

/-- **The floor child** has the points below its bound. -/
theorem shiftedFeasible_floor_iff {y : ℕ → ℚ} (hj : j < q.variableCount) (u : ℚ) :
    ShiftedFeasible (q.cloneProblem.addConstraint (LpProblem.unitRow j) (u - offsets j)) offsets y ↔
      ShiftedFeasible q offsets y ∧ y j ≤ u := by
  have hold : ∀ i < q.constraintCount,
      ((q.addConstraint (LpProblem.unitRow j) (u - offsets j)).lhs i (fun k => y k - offsets k) ≤
        (q.addConstraint (LpProblem.unitRow j) (u - offsets j)).bounds i ↔
          q.lhs i (fun k => y k - offsets k) ≤ q.bounds i) := by
    intro i hi
    have hbound : (q.addConstraint (LpProblem.unitRow j) (u - offsets j)).bounds i = q.bounds i :=
      Function.update_of_ne hi.ne _ _
    rw [lhs_addConstraint_of_ne q _ _ _ hi.ne, hbound]
  have hnew : (q.addConstraint (LpProblem.unitRow j) (u - offsets j)).lhs q.constraintCount
      (fun k => y k - offsets k) ≤
        (q.addConstraint (LpProblem.unitRow j) (u - offsets j)).bounds q.constraintCount ↔
          y j ≤ u := by
    have hbound : (q.addConstraint (LpProblem.unitRow j) (u - offsets j)).bounds
        q.constraintCount = u - offsets j := Function.update_self _ _ _
    rw [lhs_unitRow q _ _ hj, hbound, sub_le_sub_iff_right]
  rw [LpProblem.cloneProblem]
  constructor
  · rintro ⟨habove, hrow⟩
    exact ⟨⟨habove, fun i hi => (hold i hi).mp (hrow i (Nat.lt_succ_of_lt hi))⟩,
      hnew.mp (hrow _ (Nat.lt_succ_self _))⟩
  · rintro ⟨⟨habove, hrow⟩, hle⟩
    refine ⟨habove, fun i hi => ?_⟩
    rcases Nat.lt_succ_iff_lt_or_eq.mp hi with hlt | rfl
    exacts [(hold i hlt).mpr (hrow i hlt), hnew.mpr hle]

/-- **The ceil child** has the points above its bound, which is not below the origin. -/
theorem shiftedFeasible_ceil_iff {y : ℕ → ℚ} (hj : j < q.variableCount) {u : ℚ}
    (hu : offsets j ≤ u) :
    ShiftedFeasible (q.cloneWithLowerBound j (u - offsets j)).1 (Function.update offsets j u) y ↔
      ShiftedFeasible q offsets y ∧ u ≤ y j := by
  have hlhs : ∀ i, (q.cloneWithLowerBound j (u - offsets j)).1.lhs i
      (fun k => y k - Function.update offsets j u k) =
        q.lhs i (fun k => y k - offsets k) - q.constraints i j * (u - offsets j) :=
    fun i => lhs_sub_update q offsets i y hj u
  have hrow : ∀ i, ((q.cloneWithLowerBound j (u - offsets j)).1.lhs i
      (fun k => y k - Function.update offsets j u k) ≤
        (q.cloneWithLowerBound j (u - offsets j)).1.bounds i ↔
          q.lhs i (fun k => y k - offsets k) ≤ q.bounds i) := by
    intro i
    rw [hlhs]
    exact sub_le_sub_iff_right _
  constructor
  · rintro ⟨habove, hrows⟩
    have huj := habove j hj
    rw [Function.update_self] at huj
    refine ⟨⟨fun k hk => ?_, fun i hi => (hrow i).mp (hrows i hi)⟩, huj⟩
    by_cases hkj : k = j
    · rw [hkj]
      exact hu.trans huj
    · have hk' := habove k hk
      rwa [Function.update_of_ne hkj] at hk'
  · rintro ⟨⟨habove, hrows⟩, huj⟩
    refine ⟨fun k hk => ?_, fun i hi => (hrow i).mpr (hrows i hi)⟩
    by_cases hkj : k = j
    · rw [hkj, Function.update_self]
      exact huj
    · rw [Function.update_of_ne hkj]
      exact habove k hk

/-! ## The nodes of a run -/

/-- The arguments of one call of `bb_solve` or `bc_solve`. -/
structure SearchState where
  fuel : ℕ
  problem : LpProblem
  offsets : ℕ → ℚ
  objOffset : ℚ
  start : Incumbent

/-- A relaxation procedure. -/
abbrev Relax := ℕ → LpProblem → (ℕ → ℚ) → Option (Option Relaxation)

namespace SearchState

/-- The call. -/
def run (relax : Relax) (orig : LpProblem) (s : SearchState) : Option Incumbent :=
  searchSolve relax orig s.fuel s.problem s.offsets s.objOffset s.start

/-- The relaxation of the node. -/
def relaxed (relax : Relax) (s : SearchState) : Option (Option Relaxation) :=
  relax (s.fuel - 1) s.problem s.offsets

/-- The incumbent once the node is counted. -/
def opened (s : SearchState) : Incumbent := { s.start with nodes := s.start.nodes + 1 }

/-- The solution of the node, in the variables of the original problem. -/
def trueSol (s : SearchState) (R : Relaxation) (i : ℕ) : ℚ := R.solution i + s.offsets i

/-- The bound of the node. -/
def objVal (s : SearchState) (R : Relaxation) : ℚ := R.objectiveValue + s.objOffset

/-- The floor child for variable `j` with the value `v`. -/
def floorChild (s : SearchState) (j : ℕ) (v : ℚ) : SearchState where
  fuel := s.fuel - 1
  problem := s.problem.cloneProblem.addConstraint (LpProblem.unitRow j) ((⌊v⌋ : ℚ) - s.offsets j)
  offsets := s.offsets
  objOffset := s.objOffset
  start := s.opened

/-- The ceil child, which starts from the incumbent the floor child leaves. -/
def ceilChild (s : SearchState) (j : ℕ) (v : ℚ) (inc : Incumbent) : SearchState where
  fuel := s.fuel - 1
  problem := (s.problem.cloneWithLowerBound j ((⌈v⌉ : ℚ) - s.offsets j)).1
  offsets := Function.update s.offsets j ⌈v⌉
  objOffset := s.objOffset + (s.problem.cloneWithLowerBound j ((⌈v⌉ : ℚ) - s.offsets j)).2
  start := inc

/-- The incumbent after the floor child, which may be skipped. -/
def afterFloor (relax : Relax) (orig : LpProblem) (s : SearchState) (j : ℕ) (v : ℚ) :
    Option Incumbent :=
  if 0 ≤ (⌊v⌋ : ℚ) - s.offsets j then (s.floorChild j v).run relax orig else some s.opened

end SearchState

variable {relax : Relax} {orig : LpProblem}

/-- The node has a relaxation that is neither pruned nor accepted. -/
structure Fractional (relax : Relax) (orig : LpProblem) (s : SearchState) (R : Relaxation) :
    Prop where
  counted : s.start.nodes < maxNodes
  relaxed : s.relaxed relax = some (some R)
  notPruned : isPruned orig.type (s.objVal R) s.start.bestObj = false
  notAccepted : (solutionIsInteger (s.trueSol R) orig.variableCount &&
    checkFeasibility orig (s.trueSol R)) = false

/-- The node branches on variable `j`. -/
structure BranchesOn (relax : Relax) (orig : LpProblem) (s : SearchState) (R : Relaxation)
    (j : ℕ) : Prop where
  fractional : Fractional relax orig s R
  found : findBranchingVariable (s.trueSol R) orig.variableCount = some j

/-- A call and the calls it makes. -/
inductive SearchChild (relax : Relax) (orig : LpProblem) (s : SearchState) : SearchState → Prop
  | floor {R : Relaxation} {j : ℕ} (h : BranchesOn relax orig s R j)
      (hub : 0 ≤ (⌊s.trueSol R j⌋ : ℚ) - s.offsets j) :
      SearchChild relax orig s (s.floorChild j (s.trueSol R j))
  | ceil {R : Relaxation} {j : ℕ} {inc : Incumbent} (h : BranchesOn relax orig s R j)
      (hfloor : s.afterFloor relax orig j (s.trueSol R j) = some inc)
      (hlb : 0 ≤ (⌈s.trueSol R j⌉ : ℚ) - s.offsets j) :
      SearchChild relax orig s (s.ceilChild j (s.trueSol R j) inc)

/-- The node is left without its bound or its children having been used: the relaxation does not
end at `OPTIMAL`, or there is no variable to branch on, or the branching value is so far below
the origin of its variable that both children are skipped. -/
inductive Dropped (relax : Relax) (orig : LpProblem) (s : SearchState) : Prop
  | unsolved (hcounted : s.start.nodes < maxNodes) (h : s.relaxed relax = some none)
  | stuck {R : Relaxation} (h : Fractional relax orig s R)
      (hnone : findBranchingVariable (s.trueSol R) orig.variableCount = none)
  | skipped {R : Relaxation} {j : ℕ} (h : BranchesOn relax orig s R j)
      (hlb : (⌈s.trueSol R j⌉ : ℚ) - s.offsets j < 0)

/-- The node stores the solution of its relaxation: it is integral, satisfies the constraints of the
original problem, and is better than the incumbent. -/
structure Stores (relax : Relax) (orig : LpProblem) (s : SearchState) (R : Relaxation) : Prop where
  relaxed : s.relaxed relax = some (some R)
  integral : solutionIsInteger (s.trueSol R) orig.variableCount = true
  feasible : checkFeasibility orig (s.trueSol R) = true
  /-- The solution is better than the incumbent. -/
  improves : improves orig.type (s.objVal R) s.start.bestObj = true

/-- The incumbent that the node stores. -/
def SearchState.stored (s : SearchState) (R : Relaxation) : Incumbent :=
  { s.opened with
    bestObj := s.objVal R
    bestSol := s.trueSol R
    source := some ⟨R, s.offsets, s.objOffset⟩ }

/-- **What one node does**: the call ends at the node limit, drops the node, prunes it, finds its
solution no better than the incumbent, stores it, or branches. -/
inductive NodeOutcome (relax : Relax) (orig : LpProblem) (s : SearchState) (inc : Incumbent) :
    Prop
  | limit (h : maxNodes ≤ s.start.nodes) (hinc : inc = s.start)
  | dropped (h : Dropped relax orig s) (hinc : inc = s.opened)
  | pruned {R : Relaxation} (h : s.relaxed relax = some (some R))
      (hpruned : isPruned orig.type (s.objVal R) s.start.bestObj = true) (hinc : inc = s.opened)
  | passed {R : Relaxation} (h : s.relaxed relax = some (some R))
      (hnot : improves orig.type (s.objVal R) s.start.bestObj = false) (hinc : inc = s.opened)
  | stored {R : Relaxation} (h : Stores relax orig s R) (hinc : inc = s.stored R)
  | branched {R : Relaxation} {j : ℕ} {inc₁ : Incumbent} (h : BranchesOn relax orig s R j)
      (hfloor : s.afterFloor relax orig j (s.trueSol R j) = some inc₁)
      (hlb : 0 ≤ (⌈s.trueSol R j⌉ : ℚ) - s.offsets j)
      (hceil : (s.ceilChild j (s.trueSol R j) inc₁).run relax orig = some inc)

theorem SearchState.nodeOutcome {s : SearchState} {inc : Incumbent}
    (h : s.run relax orig = some inc) : NodeOutcome relax orig s inc := by
  obtain ⟨fuel, problem, offsets, objOffset, start⟩ := s
  cases fuel with
  | zero => cases h
  | succ fuel =>
    simp only [SearchState.run, searchSolve] at h
    split at h
    · next hlimit => exact .limit hlimit (Option.some.inj h).symm
    · next hlimit =>
      have hcounted := not_le.mp hlimit
      cases hr : relax fuel problem offsets with
      | none => simp [hr] at h
      | some outcome =>
        cases outcome with
        | none =>
          simp only [hr] at h
          exact .dropped (.unsolved hcounted hr) (Option.some.inj h).symm
        | some R =>
          simp only [hr] at h
          split at h
          · next hpruned => exact .pruned hr hpruned (Option.some.inj h).symm
          · next hpruned =>
            split at h
            · next haccepted =>
              obtain ⟨hint, hfeasible⟩ := Bool.and_eq_true_iff.mp haccepted
              split at h
              · next himproves =>
                exact .stored ⟨hr, hint, hfeasible, himproves⟩ (Option.some.inj h).symm
              · next hnot => exact .passed hr (Bool.eq_false_iff.mpr hnot) (Option.some.inj h).symm
            · next haccepted =>
              have hfrac : Fractional relax orig ⟨fuel + 1, problem, offsets, objOffset, start⟩ R :=
                ⟨hcounted, hr, Bool.eq_false_iff.mpr hpruned, Bool.eq_false_iff.mpr haccepted⟩
              split at h
              · next hnone => exact .dropped (.stuck hfrac hnone) (Option.some.inj h).symm
              · next j hj =>
                split at h
                · cases h
                · next inc₁ hfloor =>
                  split at h
                  · next hlb => exact .branched ⟨hfrac, hj⟩ hfloor hlb h
                  · next hlb =>
                    have hlt := not_le.mp hlb
                    -- the floor child lies even further below the origin
                    have hfc : (⌊R.solution j + offsets j⌋ : ℚ) ≤ ⌈R.solution j + offsets j⌉ :=
                      Int.cast_le.mpr (Int.floor_le_ceil _)
                    rw [if_neg (by linarith)] at hfloor
                    exact .dropped (.skipped ⟨hfrac, hj⟩ hlt)
                      ((Option.some.inj hfloor).trans (Option.some.inj h)).symm

/-- The incumbent of a later moment: more nodes counted, and at least as good. -/
structure Grows (type : ProblemType) (before after : Incumbent) : Prop where
  nodes : before.nodes ≤ after.nodes
  best : oriented type before.bestObj ≤ oriented type after.bestObj

theorem Grows.trans {type : ProblemType} {a b c : Incumbent} (hab : Grows type a b)
    (hbc : Grows type b c) : Grows type a c :=
  ⟨hab.nodes.trans hbc.nodes, hab.best.trans hbc.best⟩

theorem SearchState.grows_opened (type : ProblemType) (s : SearchState) :
    Grows type s.start s.opened :=
  ⟨Nat.le_succ _, le_refl _⟩

/-- **A search never loses what it has**, by induction on the fuel. -/
theorem SearchState.run_grows {s : SearchState} {inc : Incumbent}
    (h : s.run relax orig = some inc) : Grows orig.type s.start inc := by
  obtain ⟨fuel, hfuel⟩ : ∃ fuel, s.fuel = fuel := ⟨_, rfl⟩
  induction fuel generalizing s inc with
  | zero =>
    rw [SearchState.run, hfuel] at h
    cases h
  | succ fuel ih =>
    have hopened := s.grows_opened orig.type
    cases s.nodeOutcome h with
    | limit hlimit hinc =>
      rw [hinc]
      exact ⟨le_refl _, le_refl _⟩
    | dropped hdropped hinc => rwa [hinc]
    | pruned hR hpruned hinc => rwa [hinc]
    | passed hR hnot hinc => rwa [hinc]
    | stored hstores hinc =>
      rw [hinc]
      exact ⟨hopened.nodes, (improves_iff.mp hstores.improves).le⟩
    | @branched R j inc₁ hbranch hfloor hlb hceil =>
      have hpred : s.fuel - 1 = fuel := by omega
      have hinc₁ : Grows orig.type s.start inc₁ := by
        rw [SearchState.afterFloor] at hfloor
        split at hfloor
        · exact hopened.trans (ih hfloor hpred)
        · rwa [← Option.some.inj hfloor]
      exact hinc₁.trans (ih hceil hpred)

/-! ## Nodes that keep a point -/

/-- **What is asked of a node**, for one of its integer points: the node is not dropped, and no
reduced cost of its relaxation counts negative at the point. -/
structure NodeKeeps (relax : Relax) (orig : LpProblem) (s : SearchState) (x : ℕ → ℕ) : Prop where
  /-- The node has a bound, or children. -/
  notDropped : ¬ Dropped relax orig s
  reduced : ∀ R, s.relaxed relax = some (some R) → ∀ j < R.tableau.width,
    0 ≤ R.tableau.data R.tableau.rows j *
      withSlacks R.problem (fun k => (x k : ℚ) - s.offsets k) j

/-- The bound of a node covers a point that it keeps. -/
theorem NodeKeeps.objectiveAt_le {s : SearchState} {x : ℕ → ℕ} (hkeeps : NodeKeeps relax orig s x)
    (hrelax : RelaxSpec relax) (hsub : Subproblem orig s.problem s.offsets s.objOffset)
    {R : Relaxation} (hR : s.relaxed relax = some (some R)) :
    oriented orig.type (orig.objectiveAt fun j => (x j : ℚ)) ≤
      oriented orig.type (s.objVal R) := by
  have hspec := hrelax _ _ _ _ hR
  have hbound := hspec.tableau.objectiveAt_le (hkeeps.reduced R hR)
  have hobj : ∀ y, R.problem.objectiveAt y = orig.objectiveAt y := fun y => by
    simp only [LpProblem.objectiveAt, hspec.variableCount, hspec.objective, hsub.variableCount,
      hsub.objective]
  have hsplit : orig.objectiveAt (fun j => (x j : ℚ)) =
      orig.objectiveAt (fun j => x j - s.offsets j) + s.objOffset := by
    rw [hsub.offset, ← LpProblem.objectiveAt_add]
    simp only [sub_add_cancel]
  rw [hobj, hspec.type, hsub.type, ← hspec.objectiveValue] at hbound
  rw [hsplit, SearchState.objVal, oriented_add, oriented_add]
  exact add_le_add_left hbound _

/-- The children of a node are subproblems. -/
theorem BranchesOn.lt {s : SearchState} {R : Relaxation} {j : ℕ} (h : BranchesOn relax orig s R j) :
    j < orig.variableCount :=
  findBranchingVariable_lt h.found

/-- **A search covers the points of its root node**, when every node it visits keeps the points it
has and the node limit is not reached. By induction on the fuel: a point of a node that branches is
a point of one of the children, which is not skipped. -/
theorem SearchState.run_covers (hrelax : RelaxSpec relax) {s : SearchState} {inc : Incumbent}
    (hsub : Subproblem orig s.problem s.offsets s.objOffset)
    {x : ℕ → ℕ} (hkeeps : ∀ s', ReflTransGen (SearchChild relax orig) s s' →
      NodePoint s'.problem s'.offsets x → NodeKeeps relax orig s' x)
    (h : s.run relax orig = some inc) (hlimit : inc.nodes < maxNodes)
    (hx : NodePoint s.problem s.offsets x) :
    oriented orig.type (orig.objectiveAt fun j => (x j : ℚ)) ≤
      oriented orig.type inc.bestObj := by
  obtain ⟨fuel, hfuel⟩ : ∃ fuel, s.fuel = fuel := ⟨_, rfl⟩
  induction fuel generalizing s inc with
  | zero =>
    rw [SearchState.run, hfuel] at h
    cases h
  | succ fuel ih =>
    have hhere := hkeeps s .refl hx
    cases s.nodeOutcome h with
    | limit hover hinc =>
      rw [hinc] at hlimit
      omega
    | dropped hdropped hinc => exact absurd hdropped hhere.notDropped
    | pruned hR hpruned hinc =>
      rw [hinc]
      exact (hhere.objectiveAt_le hrelax hsub hR).trans (oriented_le_of_isPruned hpruned)
    | passed hR hnot hinc =>
      rw [hinc]
      have hle := not_lt.mp (mt improves_iff.mpr (Bool.eq_false_iff.mp hnot))
      exact (hhere.objectiveAt_le hrelax hsub hR).trans hle
    | stored hstores hinc =>
      rw [hinc]
      exact hhere.objectiveAt_le hrelax hsub hstores.relaxed
    | @branched R j inc₁ hbranch hfloor hlb hceil =>
      have hpred : s.fuel - 1 = fuel := by omega
      have hj : j < s.problem.variableCount := hsub.variableCount ▸ hbranch.lt
      have hgrows := SearchState.run_grows hceil
      rcases le_or_gt (x j : ℤ) ⌊s.trueSol R j⌋ with hle | hgt
      · have hcast : (x j : ℚ) ≤ ⌊s.trueSol R j⌋ := by exact_mod_cast hle
        have hub : 0 ≤ (⌊s.trueSol R j⌋ : ℚ) - s.offsets j := by
          have habove := hx.above j hj
          linarith
        rw [SearchState.afterFloor, if_pos hub] at hfloor
        have hcovers := ih (hsub.addConstraint _ _)
          (fun s' hs' => hkeeps s' (.head (.floor hbranch hub) hs')) hfloor
          (lt_of_le_of_lt hgrows.nodes hlimit)
          (nodePoint_iff.mpr ((shiftedFeasible_floor_iff hj _).mpr ⟨nodePoint_iff.mp hx, hcast⟩))
          hpred
        exact hcovers.trans hgrows.best
      · have hle : ⌈s.trueSol R j⌉ ≤ (x j : ℤ) := by
          refine Int.ceil_le.mpr ?_
          have hlt := Int.floor_lt.mp hgt
          exact_mod_cast hlt.le
        have hcast : (⌈s.trueSol R j⌉ : ℚ) ≤ x j := by exact_mod_cast hle
        exact ih (hsub.cloneWithLowerBound hbranch.lt _)
          (fun s' hs' => hkeeps s' (.head (.ceil hbranch hfloor hlb) hs')) hceil hlimit
          (nodePoint_iff.mpr ((shiftedFeasible_ceil_iff hj (sub_nonneg.mp hlb)).mpr
            ⟨nodePoint_iff.mp hx, hcast⟩)) hpred

/-! ## Both solvers

The driver solves the problem itself first, and a search begins only if that solution is not
integral. -/

/-- The two solvers that branch. -/
inductive BranchingSolver
  | branchAndBound
  | branchAndCut
  deriving DecidableEq, Repr

/-- The relaxation each of them solves at a node. -/
def BranchingSolver.relaxOf : BranchingSolver → Relax
  | .branchAndBound => bbRelax
  | .branchAndCut => bcRelax

/-- `solver_dispatch` for the solvers that branch. -/
def branchingSolver : BranchingSolver → ℕ → LpProblem → Option IntegerResult
  | .branchAndBound => branchAndBoundSolver
  | .branchAndCut => branchAndCutSolver

/-- The first call of the search. -/
def searchRoot (fuel : ℕ) (p : LpProblem) : SearchState :=
  ⟨fuel, p.cloneProblem, fun _ => 0, 0, ⟨initialBest p.type, fun _ => 0, 0, none⟩⟩

/-- The answer misses no integer point: none is better than an `OPTIMAL` answer, and there is none
when the answer is `INFEASIBLE`. -/
def MissesNothing (p : LpProblem) : IntegerResult → Prop
  | .optimal _ obj _ _ =>
    ∀ x, IntegerPoint p x → improves p.type (p.objectiveAt fun j => (x j : ℚ)) obj = false
  | .stopped .infeasible => ∀ x, ¬ IntegerPoint p x
  | .stopped _ => True

/-- What is asked of a run: the problem has a row; if the relaxation of the problem itself is
accepted as integral, none of its reduced costs counts negative at an integer point; and otherwise
every node the search visits keeps the points it has. -/
structure RunKeeps (relax : Relax) (fuel : ℕ) (p : LpProblem) : Prop where
  row : 0 < p.constraintCount
  root : ∀ x obj T, simplexSolver fuel p.cloneProblem = some (.optimal x obj T) →
    solutionIsInteger x p.variableCount = true → ∀ y, IntegerPoint p y → ∀ j < T.width,
      0 ≤ T.data T.rows j * withSlacks p (fun k => (y k : ℚ)) j
  nodes : ∀ x obj T, simplexSolver fuel p.cloneProblem = some (.optimal x obj T) →
    solutionIsInteger x p.variableCount = false →
      ∀ s, ReflTransGen (SearchChild relax p) (searchRoot fuel p) s →
        ∀ y, NodePoint s.problem s.offsets y → NodeKeeps relax p s y

/-- The origin is an integer point of a problem with non-negative bounds. -/
theorem integerPoint_zero (hbounds : ∀ i < p.constraintCount, 0 ≤ p.bounds i) :
    IntegerPoint p 0 := by
  intro i hi
  simpa [LpProblem.lhs] using hbounds i hi

theorem one_lt_dblMax : 1 < dblMax := by
  have hsplit : (2 : ℚ) ^ 1024 = 2 ^ 971 * 2 ^ 53 := by rw [← pow_add]
  have hone : (1 : ℚ) ≤ 2 ^ 971 := one_le_pow₀ (by norm_num)
  rw [dblMax, hsplit]
  generalize (2 : ℚ) ^ 971 = a at hone ⊢
  norm_num
  linarith

/-- **The driver misses nothing** in a run that keeps the points of its nodes. -/
theorem branchSolver_missesNothing (hrelax : RelaxSpec relax) {fuel : ℕ} {res : IntegerResult}
    (hvars : 0 < p.variableCount) (hbounds : ∀ i < p.constraintCount, 0 ≤ p.bounds i)
    (h : branchSolver relax fuel p = some res)
    (hlimit : ∀ inc, (searchRoot fuel p).run relax p = some inc → inc.nodes < maxNodes)
    (hkeeps : RunKeeps relax fuel p) : MissesNothing p res := by
  rw [branchSolver] at h
  split at h
  · cases h
  · obtain rfl := Option.some.inj h
    trivial
  · next hinfeasible =>
    have hempty := (simplexSolver_eq_infeasible_iff hinfeasible).mp rfl
    have hrow := hkeeps.row
    simp only [LpProblem.cloneProblem] at hempty
    omega
  · next x obj T hroot =>
    split at h
    · next hint =>
      obtain rfl := Option.some.inj h
      obtain ⟨hT, rfl, rfl⟩ := simplexSolver_eq_optimal hroot
      intro y hy
      have hle := hT.objectiveAt_le (hkeeps.root _ _ _ hroot hint y hy)
      exact Bool.eq_false_iff.mpr (mt improves_iff.mp (not_lt.mpr hle))
    · next hint =>
      split at h
      · cases h
      · next inc hsearch =>
        have hnodes := hkeeps.nodes _ _ _ hroot (Bool.eq_false_iff.mpr hint)
        have hcovers : ∀ y, IntegerPoint p y →
            oriented p.type (p.objectiveAt fun j => (y j : ℚ)) ≤ oriented p.type inc.bestObj :=
          fun y hy => SearchState.run_covers (s := searchRoot fuel p) hrelax (Subproblem.root p)
            (fun s' hs' => hnodes s' hs' y) hsearch (hlimit inc hsearch) hy.nodePoint
        split at h
        · next hnone =>
          -- the origin alone is worth more than the initial incumbent
          have horigin := hcovers _ (integerPoint_zero hbounds)
          have hvalue : p.objectiveAt (fun j => ((0 : ℕ → ℕ) j : ℚ)) = 0 := by
            simp [LpProblem.objectiveAt]
          have hzero : oriented p.type 0 = 0 := by
            simp only [oriented]
            cases p.type
            exacts [rfl, neg_zero]
          rw [hvalue, hzero] at horigin
          have hbest := noIncumbent_iff.mp hnone
          have hmax := one_lt_dblMax
          linarith
        · obtain rfl := Option.some.inj h
          intro y hy
          exact Bool.eq_false_iff.mpr (mt improves_iff.mp (not_lt.mpr (hcovers y hy)))

/-- **Both solvers miss nothing** in a run below the node limit whose nodes keep their points. -/
theorem branchingSolver_missesNothing {solver : BranchingSolver} {fuel : ℕ} {res : IntegerResult}
    (hvars : 0 < p.variableCount) (hbounds : ∀ i < p.constraintCount, 0 ≤ p.bounds i)
    (h : branchingSolver solver fuel p = some res)
    (hlimit : ∀ inc, (searchRoot fuel p).run solver.relaxOf p = some inc → inc.nodes < maxNodes)
    (hkeeps : RunKeeps solver.relaxOf fuel p) : MissesNothing p res := by
  cases solver with
  | branchAndBound => exact branchSolver_missesNothing bbRelax_spec hvars hbounds h hlimit hkeeps
  | branchAndCut => exact branchSolver_missesNothing bcRelax_spec hvars hbounds h hlimit hkeeps

/-! ## A lost child -/

/-- Maximise `-x₀ + 2 x₁` subject to `-x₀ + 2 x₁ ≤ 1`. -/
def lostChild : LpProblem :=
  ((createProblem 2).setObjective (fun j => if j = 0 then -1 else 2) .max).addConstraint
    (fun j => if j = 0 then -1 else 2) 1

/-- The objective value of an `OPTIMAL` answer. -/
def IntegerResult.value : IntegerResult → Option ℚ
  | .optimal _ obj _ _ => some obj
  | .stopped _ => none

/-- Where the root is not integral, the driver answers with what the search has found. -/
theorem branchSolver_value {fuel : ℕ} {x : ℕ → ℚ} {obj : ℚ} {T : Tableau} {inc : Incumbent}
    (hroot : simplexSolver fuel p.cloneProblem = some (.optimal x obj T))
    (hint : solutionIsInteger x p.variableCount = false)
    (hrun : (searchRoot fuel p).run relax p = some inc)
    (hfound : noIncumbent p.type inc.bestObj = false) :
    (branchSolver relax fuel p).bind IntegerResult.value = some inc.bestObj := by
  have hsearch : searchSolve relax p fuel p.cloneProblem (fun _ => 0) 0
      ⟨initialBest p.type, fun _ => 0, 0, none⟩ = some inc := hrun
  rw [branchSolver, hroot]
  simp only [hint, hsearch, hfound, Bool.false_eq_true, ↓reduceIte]
  rfl

/-- Maximise `x₀` subject to `2 x₀ ≤ 1`. -/
def halfBound : LpProblem :=
  ((createProblem 1).setObjective (fun _ => 1) .max).addConstraint (fun _ => 2) 1

end Solver

end OvaLib
