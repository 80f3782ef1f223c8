import Mathlib.Algebra.Order.Round
import OvaLib.Solver.BranchPartition

/-!
# Integral or branched on

A relaxed solution is accepted by `is_integer`, which rounds and compares with `<`, and branched on
by `find_branching_variable`, which measures from the floor and compares with `>`. Both measure the
distance to the nearest integer, on both sides of one half and for negative values as well, but a
component at a distance of exactly `1e-6` passes neither test. A node is dropped when its solution
has such a component and none that is further away.

## What the search relies on

The search asks the one test, and when that fails takes it for granted that the other one finds a
variable. If it does not, `bb_solve` returns, and all points of the node are lost without a word. So
the two tests should complement each other, and `branching_complements_iff` says when they do: for
every vector, and for every node that either solver reaches, with the search of its children as the
consequence.

A node is reached by a run, and its solution is what a tableau gives. So the equivalence at nodes
has examples on both sides, problems whose relaxed solution is at the tolerance and next to it.

## Main results

* `isInteger_iff_gridDistance`, `findBranchingVariable_eq_some_iff` — the two tests
* `complementary_iff` — for which vectors one of the tests passes
* `Rejected.branchedOn_iff`, `branching_complements_iff` — which nodes are branched on
-/

namespace OvaLib

namespace Solver

open Finset Foundation Relation
open OrderDual (toDual)

/-! ## The distance to the integers -/

/-- The distance of a value to the nearest integer. -/
def gridDistance (v : ℚ) : ℚ := |v - round v|

/-- An integer that is at most one half away is a nearest one. -/
theorem gridDistance_eq {v : ℚ} {m : ℤ} (h : |v - m| ≤ 1 / 2) : gridDistance v = |v - m| := by
  refine le_antisymm (round_le v m) ?_
  by_cases hm : m = round v
  · rw [gridDistance, hm]
  · have hone : (1 : ℚ) ≤ |((m - round v : ℤ) : ℚ)| := by
      exact_mod_cast Int.one_le_abs (sub_ne_zero.mpr hm)
    have hsplit : ((m - round v : ℤ) : ℚ) = (v - round v) - (v - m) := by
      push_cast
      ring
    have htriangle := abs_sub (v - round v) (v - m)
    rw [← hsplit] at htriangle
    rw [gridDistance]
    linarith

/-- The value that `is_integer` rounds to is a nearest integer. -/
theorem abs_sub_cRound_le (v : ℚ) : |v - cRound v| ≤ 1 / 2 := by
  rw [cRound]
  split
  · have hle := Int.floor_le (v + 1 / 2)
    have hlt := Int.lt_floor_add_one (v + 1 / 2)
    exact abs_le.mpr ⟨by linarith, by linarith⟩
  · have hle := Int.le_ceil (v - 1 / 2)
    have hlt := Int.ceil_lt_add_one (v - 1 / 2)
    exact abs_le.mpr ⟨by linarith, by linarith⟩

/-- **`is_integer`** compares the distance to the integers. -/
theorem isInteger_iff_gridDistance {v : ℚ} : isInteger v = true ↔ gridDistance v < intTol := by
  rw [isInteger_iff, gridDistance_eq (abs_sub_cRound_le v)]

/-- So does the branching scan. -/
theorem fractionality_eq (v : ℚ) : fractionality v = gridDistance v := by
  have hle := Int.floor_le v
  have hlt := Int.lt_floor_add_one v
  rw [fractionality]
  split
  · next hhalf =>
    have habs : |v - ((⌊v⌋ + 1 : ℤ) : ℚ)| = 1 - (v - ⌊v⌋) := by
      rw [Int.cast_add, Int.cast_one, abs_of_nonpos (by linarith)]
      ring
    rw [gridDistance_eq (m := ⌊v⌋ + 1) (by rw [habs]; linarith), habs]
  · next hhalf =>
    have habs : |v - (⌊v⌋ : ℚ)| = v - ⌊v⌋ := abs_of_nonneg (by linarith)
    rw [gridDistance_eq (by rw [habs]; exact not_lt.mp hhalf), habs]

/-! ## The two tests

Both are put in terms of the distance to the nearest integer. -/

variable {x : ℕ → ℚ} {n j : ℕ}

theorem solutionIsInteger_eq_false_iff :
    solutionIsInteger x n = false ↔ ∃ i < n, intTol ≤ gridDistance (x i) := by
  rw [← Bool.not_eq_true, solutionIsInteger]
  simp [isInteger_iff_gridDistance]

/-- The first of the components that are furthest from the integers, beyond the tolerance. -/
structure MostFractional (x : ℕ → ℚ) (n j : ℕ) : Prop where
  lt : j < n
  beyond : intTol < gridDistance (x j)
  most : ∀ i < n, gridDistance (x i) ≤ gridDistance (x j)
  /-- Of several that are equally far the first is taken. -/
  first : ∀ i < j, gridDistance (x i) < gridDistance (x j)

theorem MostFractional.unique {k : ℕ} (hj : MostFractional x n j) (hk : MostFractional x n k) :
    j = k := by
  rcases lt_trichotomy j k with hlt | heq | hgt
  · exact absurd (hj.most k hk.lt) (not_le.mpr (hk.first j hlt))
  · exact heq
  · exact absurd (hk.most j hj.lt) (not_le.mpr (hj.first k hgt))

theorem intTol_pos : 0 < intTol := by norm_num [intTol]

theorem findBranchingVariable_eq_none_iff :
    findBranchingVariable x n = none ↔ ∀ i < n, gridDistance (x i) ≤ intTol := by
  constructor
  · intro hnone i hi
    rw [findBranchingVariable_eq_scanMin] at hnone
    by_contra hbeyond
    have hfar : intTol < fractionality (x i) := by
      rw [fractionality_eq]
      exact not_le.mp hbeyond
    have hzero : fractionality (x i) ≤ 0 :=
      scanMin_eq_none hnone i hi _ (branchingScore_eq_some_iff.mpr ⟨hfar, rfl⟩)
    exact absurd (hfar.trans_le hzero) (not_lt.mpr intTol_pos.le)
  · intro hall
    rw [Option.eq_none_iff_forall_ne_some]
    intro i hi
    obtain ⟨hlt, hfar⟩ := findBranchingVariable_some hi
    rw [fractionality_eq] at hfar
    exact absurd hfar (not_lt.mpr (hall i hlt))

theorem mostFractional_of_found (h : findBranchingVariable x n = some j) :
    MostFractional x n j := by
  rw [findBranchingVariable_eq_scanMin] at h
  obtain ⟨hj, d, hd, -, hbest⟩ := scanMin_eq_some h
  have hfirst := scanMin_first h hd
  obtain ⟨hfar, rfl⟩ := branchingScore_eq_some_iff.mp hd
  rw [fractionality_eq] at hfar
  refine ⟨hj, hfar, fun i hi => ?_, fun i hi => ?_⟩
  · by_cases hi' : intTol < gridDistance (x i)
    · rw [← fractionality_eq] at hi'
      have hle : fractionality (x i) ≤ fractionality (x j) :=
        hbest i hi _ (branchingScore_eq_some_iff.mpr ⟨hi', rfl⟩)
      rwa [fractionality_eq, fractionality_eq] at hle
    · exact (not_lt.mp hi').trans hfar.le
  · by_cases hi' : intTol < gridDistance (x i)
    · rw [← fractionality_eq] at hi'
      have hlt : fractionality (x i) < fractionality (x j) :=
        hfirst i hi _ (branchingScore_eq_some_iff.mpr ⟨hi', rfl⟩)
      rwa [fractionality_eq, fractionality_eq] at hlt
    · exact (not_lt.mp hi').trans_lt hfar

/-- **`find_branching_variable`** returns the first most fractional component. -/
theorem findBranchingVariable_eq_some_iff :
    findBranchingVariable x n = some j ↔ MostFractional x n j := by
  refine ⟨mostFractional_of_found, fun hj => ?_⟩
  cases hfound : findBranchingVariable x n with
  | none =>
    have hle := findBranchingVariable_eq_none_iff.mp hfound j hj.lt
    exact absurd hj.beyond (not_lt.mpr hle)
  | some k => rw [(mostFractional_of_found hfound).unique hj]

/-- No component is exactly at the tolerance, unless another is beyond it. -/
def OffTolerance (x : ℕ → ℚ) (n : ℕ) : Prop :=
  (∃ i < n, intTol < gridDistance (x i)) ∨ ∀ i < n, gridDistance (x i) ≠ intTol

/-- **For which vectors one of the tests passes.** -/
theorem complementary_iff (x : ℕ → ℚ) (n : ℕ) :
    (solutionIsInteger x n = false → ∃ j < n, findBranchingVariable x n = some j) ↔
      OffTolerance x n := by
  constructor
  · intro hcompl
    by_contra hoff
    obtain ⟨hnear, hat⟩ := not_or.mp hoff
    push Not at hnear hat
    obtain ⟨i, hi, heq⟩ := hat
    obtain ⟨j, -, hj⟩ := hcompl (solutionIsInteger_eq_false_iff.mpr ⟨i, hi, heq.ge⟩)
    rw [findBranchingVariable_eq_none_iff.mpr hnear] at hj
    cases hj
  · intro hoff hrejected
    cases hfound : findBranchingVariable x n with
    | some j => exact ⟨j, findBranchingVariable_lt hfound, rfl⟩
    | none =>
      have hnear := findBranchingVariable_eq_none_iff.mp hfound
      obtain ⟨i, hi, hle⟩ := solutionIsInteger_eq_false_iff.mp hrejected
      rcases hoff with ⟨k, hk, hfar⟩ | hat
      · exact absurd hfar (not_lt.mpr (hnear k hk))
      · exact absurd ((hnear i hi).antisymm hle) (hat i hi)

/-! ## Nodes

A node that is not branched on calls nothing. -/

variable {relax : Relax} {orig p : LpProblem} {s : SearchState} {R : Relaxation} {fuel : ℕ}

/-- The node calls the search for a child, and is not dropped. -/
def BranchedOn (relax : Relax) (orig : LpProblem) (s : SearchState) : Prop :=
  (∃ c, SearchChild relax orig s c) ∧ ¬ Dropped relax orig s

/-- The branching value, rounded up, is not below the origin of its variable. -/
def AboveOrigin (s : SearchState) (R : Relaxation) (n : ℕ) : Prop :=
  ∀ j, MostFractional (s.trueSol R) n j → s.offsets j ≤ (⌈s.trueSol R j⌉ : ℚ)

/-- A node has one relaxation. -/
theorem Fractional.unique {R' : Relaxation} (h : Fractional relax orig s R)
    (h' : Fractional relax orig s R') : R = R' :=
  Option.some.inj (Option.some.inj (h.relaxed.symm.trans h'.relaxed))

/-- A node that calls the search for a child branches. -/
theorem SearchChild.branchesOn {c : SearchState} (hc : SearchChild relax orig s c)
    (h : Fractional relax orig s R) : ∃ j, BranchesOn relax orig s R j := by
  cases hc with
  | floor hb hub =>
    obtain rfl := h.unique hb.fractional
    exact ⟨_, hb⟩
  | ceil hb hfloor hlb =>
    obtain rfl := h.unique hb.fractional
    exact ⟨_, hb⟩

/-- The floor child is searched, or else the ceil child, unless both are skipped. -/
theorem BranchesOn.exists_child (h : BranchesOn relax orig s R j)
    (hlb : s.offsets j ≤ (⌈s.trueSol R j⌉ : ℚ)) : ∃ c, SearchChild relax orig s c := by
  by_cases hub : 0 ≤ (⌊s.trueSol R j⌋ : ℚ) - s.offsets j
  · exact ⟨_, .floor h hub⟩
  · exact ⟨_, .ceil h (if_neg hub) (sub_nonneg.mpr hlb)⟩

/-- A node that branches is dropped when both children are skipped. -/
theorem BranchesOn.dropped_iff (h : BranchesOn relax orig s R j) :
    Dropped relax orig s ↔ (⌈s.trueSol R j⌉ : ℚ) < s.offsets j := by
  rw [← sub_neg]
  constructor
  · intro hdropped
    cases hdropped with
    | unsolved hcounted hnone =>
      rw [h.fractional.relaxed] at hnone
      cases hnone
    | stuck hfrac hnone =>
      obtain rfl := h.fractional.unique hfrac
      rw [h.found] at hnone
      cases hnone
    | skipped hb hlb =>
      obtain rfl := h.fractional.unique hb.fractional
      obtain rfl := Option.some.inj (hb.found.symm.trans h.found)
      exact hlb
  · exact .skipped h

/-- **Which nodes are branched on**, of those whose solution is not integral. -/
theorem Rejected.branchedOn_iff (h : Rejected relax orig s R) :
    BranchedOn relax orig s ↔
      OffTolerance (s.trueSol R) orig.variableCount ∧ AboveOrigin s R orig.variableCount := by
  constructor
  · rintro ⟨⟨c, hc⟩, hkept⟩
    obtain ⟨j, hb⟩ := hc.branchesOn h.fractional
    have hmost := mostFractional_of_found hb.found
    refine ⟨.inl ⟨j, hb.lt, hmost.beyond⟩, fun k hk => ?_⟩
    rw [hk.unique hmost]
    exact not_lt.mp (mt hb.dropped_iff.mpr hkept)
  · rintro ⟨hoff, habove⟩
    obtain ⟨j, hj, hfound⟩ := (complementary_iff _ _).mpr hoff h.notIntegral
    have hb : BranchesOn relax orig s R j := ⟨h.fractional, hfound⟩
    have hlb := habove j (mostFractional_of_found hfound)
    exact ⟨hb.exists_child hlb, mt hb.dropped_iff.mp (not_lt.mpr hlb)⟩

/-- In a run, where the origins are integers, only the tolerance counts as long as the relaxed
values are not negative. -/
theorem Rejected.branchedOn_iff_of_reached (h : Rejected relax p s R)
    (hs : ReflTransGen (SearchChild relax p) (searchRoot fuel p) s)
    (hnonneg : ∀ j < p.variableCount, 0 ≤ R.solution j) :
    BranchedOn relax p s ↔ OffTolerance (s.trueSol R) p.variableCount := by
  have hint := (reached_subproblem hs).2
  rw [h.branchedOn_iff]
  exact and_iff_left fun j hj => (offset_le_floor hint (hnonneg j hj.lt)).2

/-- **The two tests complement each other** off the tolerance: for every vector, and at every node
of either solver. -/
theorem branching_complements_iff (solver : BranchingSolver) (orig : LpProblem) :
    (∀ x n, (solutionIsInteger x n = false → ∃ j < n, findBranchingVariable x n = some j) ↔
      OffTolerance x n) ∧
    ∀ s R, Rejected solver.relaxOf orig s R → (BranchedOn solver.relaxOf orig s ↔
      OffTolerance (s.trueSol R) orig.variableCount ∧ AboveOrigin s R orig.variableCount) :=
  ⟨complementary_iff, fun _ _ h => h.branchedOn_iff⟩

/-! ## Single nodes -/

/-- The root of a run that branches on `x₀ = 1/2`. -/
theorem branching_complements_iff_half : ∃ R,
    Rejected bbRelax halfBound (searchRoot 4 halfBound) R ∧
      BranchedOn bbRelax halfBound (searchRoot 4 halfBound) := by
  obtain ⟨R, h, -, hhalf⟩ := rejected_of_readings (s := searchRoot 4 halfBound) (by decide)
    (show SearchState.readings bbRelax halfBound _ 0 = some (some (false, false, some 0, 1 / 2)) by
      decide +kernel)
  refine ⟨R, h, ((branching_complements_iff .branchAndBound halfBound).2 _ R h).mpr
    ⟨.inl ⟨0, Nat.one_pos, ?_⟩, fun j hj => ?_⟩⟩
  · rw [hhalf]
    decide +kernel
  · obtain rfl := Nat.lt_one_iff.mp hj.lt
    rw [hhalf]
    decide +kernel

/-- Maximise `x₀` subject to `x₀ ≤ 1e-6`. -/
def toleranceBound : LpProblem :=
  ((createProblem 1).setObjective (fun _ => 1) .max).addConstraint (fun _ => 1) intTol

/-- The answer is `INFEASIBLE`. -/
def IntegerResult.isInfeasible : IntegerResult → Bool
  | .stopped .infeasible => true
  | _ => false

/-- The value `1e-6` is neither integral nor branched on. Where it is the optimum of the relaxation,
both solvers drop the root of their search and answer `INFEASIBLE`, although the origin satisfies
the constraint. -/
theorem branching_drops_tolerance :
    (solutionIsInteger (fun _ => intTol) 1 = false ∧
      findBranchingVariable (fun _ => intTol) 1 = none) ∧
    ∀ solver : BranchingSolver,
      (∃ R, Rejected solver.relaxOf toleranceBound (searchRoot 4 toleranceBound) R ∧
        Dropped solver.relaxOf toleranceBound (searchRoot 4 toleranceBound) ∧
        ¬ BranchedOn solver.relaxOf toleranceBound (searchRoot 4 toleranceBound)) ∧
      ∃ res, branchingSolver solver 4 toleranceBound = some res ∧
        ¬ MissesNothing toleranceBound res := by
  refine ⟨by decide +kernel, fun solver => ⟨?_, ?_⟩⟩
  · obtain ⟨R, h, hnone, -⟩ := rejected_of_readings (s := searchRoot 4 toleranceBound) (by decide)
      (show SearchState.readings solver.relaxOf toleranceBound _ 0 =
        some (some (false, false, none, intTol)) by cases solver <;> decide +kernel)
    have hdropped := Dropped.stuck h.fractional hnone
    exact ⟨R, h, hdropped, fun hbranched => hbranched.2 hdropped⟩
  · have hrun : (branchingSolver solver 4 toleranceBound).map IntegerResult.isInfeasible =
        some true := by
      cases solver <;> decide +kernel
    obtain ⟨res, hres, hinfeasible⟩ := Option.map_eq_some_iff.mp hrun
    refine ⟨res, hres, fun hmisses => ?_⟩
    have horigin : IntegerPoint toleranceBound fun _ => 0 := by
      rw [IntegerPoint]
      decide +kernel
    cases res with
    | optimal x obj out src => cases hinfeasible
    | stopped status =>
      cases status with
      | infeasible => exact hmisses _ horigin
      | optimal => cases hinfeasible
      | unbounded => cases hinfeasible

/-- Maximise `x₁` subject to `x₀ + 3 x₁ ≤ 3/2` and `x₁ ≤ 1`. -/
def belowOrigin : LpProblem :=
  (((createProblem 2).setObjective (fun j => if j = 1 then 1 else 0) .max).addConstraint
    (fun j => if j = 1 then 3 else 1) (3 / 2)).addConstraint (fun j => if j = 1 then 1 else 0) 1

/-- The other way to drop a node. In the ceil child for `x₁ = 1/2` the first bound is `-3/2`, which
the read-out takes for the value of `x₀`: below the origin by more than one, so that neither of its
own children is searched. -/
theorem branching_drops_belowOrigin : ∃ s R,
    ReflTransGen (SearchChild bbRelax belowOrigin) (searchRoot 8 belowOrigin) s ∧
      Rejected bbRelax belowOrigin s R ∧ OffTolerance (s.trueSol R) belowOrigin.variableCount ∧
      ¬ BranchedOn bbRelax belowOrigin s := by
  obtain ⟨R, h, hfound, hhalf⟩ := rejected_of_readings (s := searchRoot 8 belowOrigin) (by decide)
    (show SearchState.readings bbRelax belowOrigin _ 1 =
      some (some (false, false, some 1, 1 / 2)) by decide +kernel)
  have hfloor : ((searchRoot 8 belowOrigin).afterFloor bbRelax belowOrigin 1 (1 / 2)).map
      Incumbent.nodes = some 4 := by
    decide +kernel
  have hchild : ((searchRoot 8 belowOrigin).afterFloor bbRelax belowOrigin 1 (1 / 2)).bind
      (fun inc => ((searchRoot 8 belowOrigin).ceilChild 1 (1 / 2) inc).readings bbRelax
        belowOrigin 0) = some (some (false, false, some 0, -3 / 2)) := by
    decide +kernel
  obtain ⟨inc, hinc, hnodes⟩ := Option.map_eq_some_iff.mp hfloor
  have hcounted : inc.nodes < maxNodes := by
    rw [hnodes]
    decide
  rw [hinc, Option.bind_some] at hchild
  obtain ⟨R', h', hfound', hvalue⟩ := rejected_of_readings hcounted hchild
  have hstep : SearchChild bbRelax belowOrigin (searchRoot 8 belowOrigin)
      ((searchRoot 8 belowOrigin).ceilChild 1 ((searchRoot 8 belowOrigin).trueSol R 1) inc) := by
    refine .ceil ⟨h.fractional, hfound⟩ (by rw [hhalf, hinc]) ?_
    rw [hhalf]
    decide +kernel
  rw [hhalf] at hstep
  refine ⟨_, R', .single hstep, h', .inl ⟨0, Nat.two_pos, ?_⟩, ?_⟩
  · rw [hvalue]
    decide +kernel
  · rintro ⟨-, hkept⟩
    have hb : BranchesOn bbRelax belowOrigin _ R' 0 := ⟨h'.fractional, hfound'⟩
    refine hkept (hb.dropped_iff.mpr ?_)
    have horigin : ((searchRoot 8 belowOrigin).ceilChild 1 (1 / 2) inc).offsets 0 = 0 := rfl
    rw [hvalue, horigin]
    decide +kernel

end Solver

end OvaLib
