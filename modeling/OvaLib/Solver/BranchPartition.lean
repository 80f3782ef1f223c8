import OvaLib.Solver.BranchComplete

/-!
# Branching partitions the integer points

A node stands for the integer vectors that its shifted problem still contains. Its children cut
these in two at the branching value, without a vector that is in both or in neither, whatever path
of branchings led to the node: the offsets stay integers, so an integer below the branching value is
not below the origin, and neither of the two guards skips a child.

## What a shift does

The ceil child substitutes `x_j = x_j' + lb`. In its variables the vectors are others, so that the
statement has to be about the vectors of the original problem: a node has the vector `x` when `x -
offsets` is not negative and satisfies the problem of the node. The substitution changes the bounds
and leaves the rows, and it adds its constant to the offset of the objective, so that the value of a
vector at the child is the value in the original problem. Both are part of the statement, for both
solvers, whose copies of the substitution are two functions in the source.

The cuts of a node are not in its children, since these are made from the problem of the node, and
so the statement is the same for branch and cut.

## Main results

* `reached_subproblem` — what every node of a run has in common
* `SearchState.run_of_branchesOn` — both children are searched
* `branching_partitions` — what the children have of the node
-/

namespace OvaLib

namespace Solver

open Foundation Relation

variable {relax : Relax} {p orig : LpProblem} {s c : SearchState} {R : Relaxation} {j fuel : ℕ}

/-! ## The nodes of a run -/

/-- The offsets of a node are integers. -/
def IntegerOffsets (s : SearchState) : Prop := ∀ k, ∃ z : ℤ, s.offsets k = z

/-- A child is a subproblem like its parent. -/
theorem SearchChild.subproblem (h : SearchChild relax orig s c)
    (hsub : Subproblem orig s.problem s.offsets s.objOffset) (hint : IntegerOffsets s) :
    Subproblem orig c.problem c.offsets c.objOffset ∧ IntegerOffsets c := by
  cases h with
  | floor hb hub => exact ⟨hsub.addConstraint _ _, hint⟩
  | @ceil R j inc hb hfloor hlb =>
    refine ⟨hsub.cloneWithLowerBound hb.lt _, fun k => ?_⟩
    by_cases hkj : k = j
    · exact ⟨⌈s.trueSol R j⌉, by rw [hkj]; exact Function.update_self _ _ _⟩
    · obtain ⟨z, hz⟩ := hint k
      exact ⟨z, (Function.update_of_ne hkj _ _).trans hz⟩

/-- **What every node of a run has in common.** -/
theorem reached_subproblem (h : ReflTransGen (SearchChild relax p) (searchRoot fuel p) s) :
    Subproblem p s.problem s.offsets s.objOffset ∧ IntegerOffsets s := by
  induction h with
  | refl => exact ⟨Subproblem.root p, fun _ => ⟨0, Int.cast_zero.symm⟩⟩
  | tail _ hstep ih => exact hstep.subproblem ih.1 ih.2

/-! ## Nodes that are not integral -/

/-- The relaxed solution of the node comes to the integrality test and fails it. -/
structure Rejected (relax : Relax) (orig : LpProblem) (s : SearchState) (R : Relaxation) :
    Prop where
  counted : s.start.nodes < maxNodes
  relaxed : s.relaxed relax = some (some R)
  notPruned : isPruned orig.type (s.objVal R) s.start.bestObj = false
  notIntegral : solutionIsInteger (s.trueSol R) orig.variableCount = false

theorem Rejected.fractional (h : Rejected relax orig s R) : Fractional relax orig s R :=
  ⟨h.counted, h.relaxed, h.notPruned, by rw [h.notIntegral, Bool.false_and]⟩

/-- What the tests of a node say, and the value of variable `j` there. -/
def SearchState.readings (relax : Relax) (orig : LpProblem) (s : SearchState) (j : ℕ) :
    Option (Option (Bool × Bool × Option ℕ × ℚ)) :=
  (s.relaxed relax).map (Option.map fun R =>
    (isPruned orig.type (s.objVal R) s.start.bestObj,
      solutionIsInteger (s.trueSol R) orig.variableCount,
      findBranchingVariable (s.trueSol R) orig.variableCount, s.trueSol R j))

theorem rejected_of_readings {found : Option ℕ} {v : ℚ} (hcounted : s.start.nodes < maxNodes)
    (h : s.readings relax orig j = some (some (false, false, found, v))) :
    ∃ R, Rejected relax orig s R ∧
      findBranchingVariable (s.trueSol R) orig.variableCount = found ∧ s.trueSol R j = v := by
  obtain ⟨o, ho, hsome⟩ := Option.map_eq_some_iff.mp h
  obtain ⟨R, rfl, hR⟩ := Option.map_eq_some_iff.mp hsome
  simp only [Prod.mk.injEq] at hR
  obtain ⟨hpruned, hrejected, hfound, hvalue⟩ := hR
  exact ⟨R, ⟨hcounted, ho, hpruned, hrejected⟩, hfound, hvalue⟩

/-! ## The branching value

It is a value of the relaxed solution that is not close to an integer. -/

/-- A branching value is not an integer. -/
theorem BranchesOn.ceil_eq (h : BranchesOn relax orig s R j) :
    ⌈s.trueSol R j⌉ = ⌊s.trueSol R j⌋ + 1 := by
  refine Int.ceil_eq_iff.mpr ⟨?_, ?_⟩
  · have hfrac := (findBranchingVariable_some h.found).2
    have hpos : 0 < intTol := by norm_num [intTol]
    have hle := Int.floor_le (s.trueSol R j)
    rw [Int.cast_add, Int.cast_one, add_sub_cancel_right]
    refine lt_of_le_of_ne hle fun heq => ?_
    rw [fractionality, ← heq, Int.floor_intCast, sub_self, if_neg (by norm_num)] at hfrac
    exact absurd hfrac (not_lt.mpr hpos.le)
  · rw [Int.cast_add, Int.cast_one]
    exact (Int.lt_floor_add_one _).le

/-- **Neither guard skips a child.** The relaxed value is not below the origin, which is an
integer. -/
theorem offset_le_floor (hint : IntegerOffsets s) (hnonneg : 0 ≤ R.solution j) :
    s.offsets j ≤ (⌊s.trueSol R j⌋ : ℚ) ∧ s.offsets j ≤ (⌈s.trueSol R j⌉ : ℚ) := by
  obtain ⟨z, hz⟩ := hint j
  have hle : (z : ℚ) ≤ s.trueSol R j := by
    rw [SearchState.trueSol, hz]
    exact le_add_of_nonneg_left hnonneg
  rw [hz]
  exact ⟨Int.cast_le.mpr (Int.le_floor.mpr hle),
    Int.cast_le.mpr (Int.cast_le.mp (hle.trans (Int.le_ceil _)))⟩

/-- **Both children are searched**, the ceil child from where the floor child leaves off. -/
theorem SearchState.run_of_branchesOn (hb : BranchesOn relax orig s R j) (hint : IntegerOffsets s)
    (hnonneg : 0 ≤ R.solution j) :
    s.run relax orig = ((s.floorChild j (s.trueSol R j)).run relax orig).bind fun inc =>
      (s.ceilChild j (s.trueSol R j) inc).run relax orig := by
  obtain ⟨hfloor, hceil⟩ := offset_le_floor hint hnonneg
  obtain ⟨fuel, problem, offsets, objOffset, start⟩ := s
  obtain ⟨⟨hcounted, hrelaxed, hpruned, haccepted⟩, hfound⟩ := hb
  cases fuel with
  | zero => rfl
  | succ fuel =>
    have hr : relax fuel problem offsets = some (some R) := hrelaxed
    have hub : 0 ≤ (⌊R.solution j + offsets j⌋ : ℚ) - offsets j := sub_nonneg.mpr hfloor
    have hlb : 0 ≤ (⌈R.solution j + offsets j⌉ : ℚ) - offsets j := sub_nonneg.mpr hceil
    have hfound : findBranchingVariable (fun i => R.solution i + offsets i) orig.variableCount =
        some j := hfound
    have haccepted : (solutionIsInteger (fun i => R.solution i + offsets i) orig.variableCount &&
        checkFeasibility orig fun i => R.solution i + offsets i) = false := haccepted
    simp only [objVal] at hpruned
    simp only [run, searchSolve, hr, floorChild, ceilChild, opened, Nat.add_sub_cancel, trueSol]
    rw [if_neg (not_le.mpr hcounted), if_neg (by rw [hpruned]; exact Bool.false_ne_true),
      if_neg (by rw [haccepted]; exact Bool.false_ne_true), hfound]
    dsimp only
    rw [if_pos hub]
    generalize searchSolve relax orig fuel _ offsets objOffset _ = afterFloor
    cases afterFloor with
    | none => rfl
    | some inc => exact if_pos hlb

/-! ## The children of a node -/

/-- The node still has the integer vector `x`: `x - o` is not negative and satisfies the shifted
problem. -/
def Represents (s : SearchState) (x : ℕ → ℤ) : Prop :=
  ShiftedFeasible s.problem s.offsets fun k => x k

/-- The shifted objective and the accumulated offset make up the objective of the original
problem. -/
def ValueKept (orig : LpProblem) (s : SearchState) : Prop :=
  ∀ x : ℕ → ℤ, s.problem.objectiveAt (fun k => x k - s.offsets k) + s.objOffset =
    orig.objectiveAt fun k => x k

/-- **What the children have of the node** that branches on variable `j` with the value `v`. -/
structure Partitions (relax : Relax) (orig : LpProblem) (s : SearchState) (j : ℕ) (v : ℚ) :
    Prop where
  /-- Neither child is skipped, and there are no others. -/
  searched : s.run relax orig = ((s.floorChild j v).run relax orig).bind fun inc =>
    (s.ceilChild j v inc).run relax orig
  floor_iff : ∀ x, Represents (s.floorChild j v) x ↔ Represents s x ∧ x j ≤ ⌊v⌋
  ceil_iff : ∀ inc x, Represents (s.ceilChild j v inc) x ↔ Represents s x ∧ ⌈v⌉ ≤ x j
  /-- A vector belongs to one side. -/
  exactlyOne : ∀ x : ℕ → ℤ, x j ≤ ⌊v⌋ ∧ ¬ ⌈v⌉ ≤ x j ∨ ¬ x j ≤ ⌊v⌋ ∧ ⌈v⌉ ≤ x j
  /-- The objective of the original problem can be read off. -/
  floorValue : ValueKept orig (s.floorChild j v)
  ceilValue : ∀ inc, ValueKept orig (s.ceilChild j v inc)

theorem Subproblem.valueKept (h : Subproblem orig s.problem s.offsets s.objOffset) :
    ValueKept orig s := by
  intro x
  have hobj : ∀ y, s.problem.objectiveAt y = orig.objectiveAt y := fun y => by
    simp only [LpProblem.objectiveAt, h.variableCount, h.objective]
  rw [hobj, h.offset, ← LpProblem.objectiveAt_add]
  simp only [sub_add_cancel]

/-- **Branching loses no integer point**, at every node that either solver reaches: a vector of the
node is in exactly one of the two children, which are both searched, every vector of a child is one
of the node, and the children keep the objective. -/
theorem branching_partitions (solver : BranchingSolver)
    (hs : ReflTransGen (SearchChild solver.relaxOf p) (searchRoot fuel p) s)
    (hb : BranchesOn solver.relaxOf p s R j) (hnonneg : 0 ≤ R.solution j) :
    Partitions solver.relaxOf p s j (s.trueSol R j) := by
  obtain ⟨hsub, hint⟩ := reached_subproblem hs
  obtain ⟨hfloor, hceil⟩ := offset_le_floor hint hnonneg
  have hj : j < s.problem.variableCount := hsub.variableCount ▸ hb.lt
  refine ⟨SearchState.run_of_branchesOn hb hint hnonneg, fun x => ?_, fun inc x => ?_,
    fun x => ?_, (hsub.addConstraint _ _).valueKept,
    fun inc => (hsub.cloneWithLowerBound hb.lt _).valueKept⟩
  · exact (shiftedFeasible_floor_iff hj _).trans (and_congr_right' Int.cast_le)
  · exact (shiftedFeasible_ceil_iff hj hceil).trans (and_congr_right' Int.cast_le)
  · have hsucc := hb.ceil_eq
    omega

/-- The root of a run that branches on `x₀ = 1/2`. -/
theorem branching_partitions_half : ∃ R,
    (searchRoot 4 halfBound).relaxed bbRelax = some (some R) ∧
      Partitions bbRelax halfBound (searchRoot 4 halfBound) 0
        ((searchRoot 4 halfBound).trueSol R 0) := by
  obtain ⟨R, h, hfound, hhalf⟩ := rejected_of_readings (s := searchRoot 4 halfBound) (by decide)
    (show SearchState.readings bbRelax halfBound _ 0 = some (some (false, false, some 0, 1 / 2)) by
      decide +kernel)
  refine ⟨R, h.relaxed, branching_partitions .branchAndBound .refl ⟨h.fractional, hfound⟩ ?_⟩
  have hsolution : R.solution 0 = 1 / 2 := (add_zero _).symm.trans hhalf
  rw [hsolution]
  norm_num

end Solver

end OvaLib
