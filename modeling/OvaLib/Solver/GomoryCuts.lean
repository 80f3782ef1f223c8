import OvaLib.Solver.BranchComplete

/-!
# The rows that `add_gomory_cuts` adds

Row `i` of a final tableau says that the basic variable and the fractional parts of the other
columns, the slacks among them, add up to the fractional part `f0` of the right-hand side or to more
by an integer. So the fractional cut is that the fractional parts weighted with the variables are
*at least* `f0`. `add_gomory_cuts` leaves out the slack columns and adds the row with `≤`. The basic
point satisfies every such row, since it is zero outside of the basis and the basic columns have no
fractional parts; and an integer point need not.

## What a cut is for

A cut holds at every integer point of the problem and fails at the point that was found, so that the
next round finds another. `CutsSeparate` says that of every row that is added. Since the basic point
satisfies each of them, it is true only when none is added, and that is when every right-hand side
of the tableau is within the tolerance of an integer; this is the equivalence. It is about the
function, for any tableau that a run ends with.

That the rows may also fail at integer points is shown by an example, in which the only row that is
added excludes the optimum.

## Main results

* `addGomoryCuts_spec` — which rows are added
* `TableauInv.gomoryCut_basicValue` — the basic point satisfies them
* `addGomoryCuts_separate_iff` — the rows are cuts exactly when there are none
-/

namespace OvaLib

namespace Solver

open Finset Foundation

variable {p q : LpProblem} {T : Tableau} {n i : ℕ}

/-! ## Which rows are added -/

/-- The right-hand side of row `i` is not close to an integer. -/
def FractionalRow (T : Tableau) (i : ℕ) : Prop :=
  intTol < fractionalPart (T.rhs i) ∧ fractionalPart (T.rhs i) ≤ 1 - intTol

/-- No coefficient is out of range: fractional parts are below one. -/
theorem gomoryCut_eq (T : Tableau) (n i : ℕ) (h : FractionalRow T i) :
    gomoryCut T n i = some (fun j => if j < n then fractionalPart (T.data i j) else 0,
      fractionalPart (T.rhs i)) := by
  have hvalid : ((List.range n).all fun j => !(fractionalPart (T.data i j) < -coeffLimit ||
      coeffLimit < fractionalPart (T.data i j))) = true := by
    rw [List.all_eq_true]
    intro j _
    have hlow : -coeffLimit ≤ Int.fract (T.data i j) := by
      have hnonneg := Int.fract_nonneg (T.data i j)
      have hlimit : -coeffLimit ≤ 0 := by norm_num [coeffLimit]
      linarith
    have hhigh : Int.fract (T.data i j) ≤ coeffLimit := by
      have hlt := Int.fract_lt_one (T.data i j)
      have hlimit : 1 ≤ coeffLimit := by norm_num [coeffLimit]
      linarith
    have hfract : fractionalPart (T.data i j) = Int.fract (T.data i j) := rfl
    rw [hfract, decide_eq_false (not_lt.mpr hlow), decide_eq_false (not_lt.mpr hhigh)]
    rfl
  rw [gomoryCut]
  dsimp only
  rw [if_neg (not_or.mpr ⟨not_lt.mpr h.1.le, not_lt.mpr h.2⟩), hvalid,
    if_pos (by rw [Bool.true_and]; exact decide_eq_true h.1)]

theorem gomoryCut_none (T : Tableau) (n i : ℕ) (h : ¬ FractionalRow T i) :
    gomoryCut T n i = none := by
  rw [gomoryCut]
  dsimp only
  split
  · rfl
  · next hclose =>
    refine if_neg fun hvalid => h ⟨?_, not_lt.mp (not_or.mp hclose).2⟩
    exact of_decide_eq_true (Bool.and_eq_true_iff.mp hvalid).2

/-- Row `k` of `q` is the row made from row `i` of the tableau. -/
def IsCutOf (T : Tableau) (n : ℕ) (q : LpProblem) (k i : ℕ) : Prop :=
  (q.constraints k = fun j => if j < n then fractionalPart (T.data i j) else 0) ∧
    q.bounds k = fractionalPart (T.rhs i)

/-- What the loop of `add_gomory_cuts` leaves behind, over the rows in `l`. -/
structure CutsAdded (T : Tableau) (n : ℕ) (l : List ℕ) (before after : LpProblem × ℕ) : Prop where
  variableCount : after.1.variableCount = before.1.variableCount
  count_le : before.1.constraintCount ≤ after.1.constraintCount
  /-- The rows that were there. -/
  old : ∀ k < before.1.constraintCount, after.1.constraints k = before.1.constraints k ∧
    after.1.bounds k = before.1.bounds k
  /-- Each further row comes from a row of the tableau. -/
  new : ∀ k, before.1.constraintCount ≤ k → k < after.1.constraintCount →
    ∃ i ∈ l, FractionalRow T i ∧ IsCutOf T n after.1 k i
  added : before.2 < maxCuts → (∃ i ∈ l, FractionalRow T i) →
    before.1.constraintCount < after.1.constraintCount

/-- **Which rows are added**, by induction on the rows that are looked at. -/
theorem foldl_cutStep (l : List ℕ) (acc : LpProblem × ℕ) :
    CutsAdded T n l acc (l.foldl (cutStep T n) acc) := by
  induction l generalizing acc with
  | nil =>
    exact ⟨rfl, le_refl _, fun _ _ => ⟨rfl, rfl⟩, fun k hk hk' => absurd hk' (not_lt.mpr hk),
      by simp⟩
  | cons i l ih =>
    rw [List.foldl_cons]
    obtain ⟨hvars, hcount, hold, hnew, hadded⟩ := ih (cutStep T n acc i)
    by_cases hstep : acc.2 < maxCuts ∧ FractionalRow T i
    · have hcut : cutStep T n acc i = (acc.1.addConstraint
          (fun j => if j < n then fractionalPart (T.data i j) else 0)
          (fractionalPart (T.rhs i)), acc.2 + 1) := by
        rw [cutStep, if_pos hstep.1, gomoryCut_eq T n i hstep.2]
      have hsucc : (cutStep T n acc i).1.constraintCount = acc.1.constraintCount + 1 := by
        rw [hcut]
        rfl
      rw [hsucc] at hcount hold hnew
      refine ⟨by rw [hvars, hcut]; rfl, by omega, fun k hk => ?_, fun k hk hk' => ?_,
        fun _ _ => by omega⟩
      · obtain ⟨hrow, hbound⟩ := hold k (by omega)
        rw [hrow, hbound, hcut]
        exact ⟨Function.update_of_ne hk.ne _ _, Function.update_of_ne hk.ne _ _⟩
      · rcases hk.eq_or_lt with rfl | hlt
        · obtain ⟨hrow, hbound⟩ := hold acc.1.constraintCount (by omega)
          refine ⟨i, List.mem_cons_self, hstep.2, ?_, ?_⟩
          · rw [hrow, hcut]
            exact Function.update_self _ _ _
          · rw [hbound, hcut]
            exact Function.update_self _ _ _
        · obtain ⟨r, hr, hcutOf⟩ := hnew k hlt hk'
          exact ⟨r, List.mem_cons_of_mem _ hr, hcutOf⟩
    · have hsame : cutStep T n acc i = acc := by
        rw [cutStep]
        split
        · next hlt => rw [gomoryCut_none T n i fun hfrac => hstep ⟨hlt, hfrac⟩]
        · rfl
      rw [hsame] at hvars hcount hold hnew hadded ⊢
      refine ⟨hvars, hcount, hold, fun k hk hk' => ?_, fun hlt hfrac => hadded hlt ?_⟩
      · obtain ⟨r, hr, hcutOf⟩ := hnew k hk hk'
        exact ⟨r, List.mem_cons_of_mem _ hr, hcutOf⟩
      · obtain ⟨r, hr, hrow⟩ := hfrac
        rcases List.mem_cons.mp hr with rfl | hr
        · exact absurd ⟨hlt, hrow⟩ hstep
        · exact ⟨r, hr, hrow⟩

theorem addGomoryCuts_spec (q : LpProblem) (T : Tableau) (n : ℕ) :
    CutsAdded T n (List.range T.rows) (q, 0) (addGomoryCuts q T n) := by
  rw [addGomoryCuts_eq]
  exact foldl_cutStep _ _

/-! ## The basic point -/

/-- **The basic point satisfies every row that is added.** -/
theorem TableauInv.gomoryCut_basicValue (hT : TableauInv p T) {k : ℕ} (hi : i < T.rows)
    (hvars : q.variableCount = p.variableCount) (hcut : IsCutOf T p.variableCount q k i) :
    q.lhs k T.basicValue ≤ q.bounds k := by
  let f : ℕ → ℚ := fun j => if j < p.variableCount then fractionalPart (T.data i j) else 0
  have hwidth : range p.variableCount ⊆ range T.width := by
    refine range_mono ?_
    rw [Tableau.width, hT.cols_eq]
    exact Nat.le_add_right _ _
  have hsum : q.lhs k T.basicValue = ∑ j ∈ range T.width, f j * T.basicValue j := by
    rw [LpProblem.lhs, hvars, hcut.1]
    refine sum_subset hwidth fun j _ hj => ?_
    dsimp only
    rw [if_neg (fun hlt => hj (mem_range.mpr hlt)), zero_mul]
  rw [hsum, hT.sum_mul_basicValue, hcut.2, sum_eq_zero]
  · exact Int.fract_nonneg _
  · intro r hr
    -- a basic column is a unit column
    have hzero : fractionalPart (T.data i (T.basis r)) = 0 := by
      rw [hT.unit r (mem_range.mp hr) i hi.le, fractionalPart]
      split <;> simp
    have hf : f (T.basis r) = 0 := by
      simp only [f, hzero, ite_self]
    rw [hf, zero_mul]

/-! ## What a cut is for

The purpose in two parts, one for integer points and one for the basic point. -/

/-- The problem with the rows that `add_gomory_cuts` adds. -/
def withCuts (p : LpProblem) (T : Tableau) : LpProblem := (addGomoryCuts p T p.variableCount).1

/-- Every row that `add_gomory_cuts` adds holds at every integer point of the problem, and not at
the basic point of the tableau. -/
def CutsSeparate (p : LpProblem) (T : Tableau) : Prop :=
  ∀ k, p.constraintCount ≤ k → k < (withCuts p T).constraintCount →
    (∀ x, IntegerPoint p x → (withCuts p T).lhs k (fun j => (x j : ℚ)) ≤ (withCuts p T).bounds k) ∧
      (withCuts p T).bounds k < (withCuts p T).lhs k T.basicValue

/-- **The added rows are cuts exactly when there are none**: every right-hand side of the final
tableau is close to an integer. -/
theorem addGomoryCuts_separate_iff {fuel : ℕ} {x : ℕ → ℚ} {obj : ℚ}
    (h : simplexSolver fuel p = some (.optimal x obj T)) :
    CutsSeparate p T ↔ ∀ i < T.rows, ¬ FractionalRow T i := by
  have hT := (simplexSolver_eq_optimal h).1
  obtain ⟨hvars, -, -, hnew, hadded⟩ := addGomoryCuts_spec p T p.variableCount
  constructor
  · intro hseparate i hi hfrac
    have hlt := hadded (show 0 < 10 by decide) ⟨i, List.mem_range.mpr hi, hfrac⟩
    obtain ⟨r, hr, -, hcut⟩ := hnew _ (le_refl _) hlt
    have hviolated := (hseparate _ (le_refl _) hlt).2
    have hsatisfied := hT.gomoryCut_basicValue (List.mem_range.mp hr) hvars hcut
    exact absurd hviolated (not_lt.mpr hsatisfied)
  · intro hnone k hk hk'
    obtain ⟨r, hr, hfrac, -⟩ := hnew k hk hk'
    exact absurd hfrac (hnone r (List.mem_range.mp hr))

/-- Maximise `x₀` subject to `2 x₀ + x₁ ≤ 3`. -/
def evenRow : LpProblem :=
  ((createProblem 2).setObjective (fun j => if j = 0 then 1 else 0) .max).addConstraint
    (fun j => if j = 0 then 2 else 1) 3

/-- Under `x₀ ≤ 3` the optimum is an integer, and nothing is added. Under `2 x₀ + x₁ ≤ 3` it is
`3/2`, and the row that is added is no cut. -/
theorem addGomoryCuts_separate_iff_three :
    (∃ x obj T, simplexSolver 3 ((createProblem 1).addConstraint (fun _ => 1) 3 |>.setObjective
      (fun _ => 1) .max) = some (.optimal x obj T) ∧
      CutsSeparate ((createProblem 1).addConstraint (fun _ => 1) 3 |>.setObjective
        (fun _ => 1) .max) T) ∧
    ∃ x obj T, simplexSolver 3 evenRow = some (.optimal x obj T) ∧ T.rhs 0 = 3 / 2 ∧
      (withCuts evenRow T).constraintCount = 2 ∧ ¬ CutsSeparate evenRow T := by
  constructor
  · obtain ⟨res, hres, hread⟩ := Option.bind_eq_some_iff.mp
      (show (simplexSolver 3 ((createProblem 1).addConstraint (fun _ => 1) 3 |>.setObjective
        (fun _ => 1) .max)).bind (fun res => res.optimalTableau.map fun T => (T.rows, T.rhs 0)) =
          some (1, 3) by decide +kernel)
    cases res with
    | optimal x obj T =>
      obtain ⟨hrows, hrhs⟩ := Prod.mk.inj (Option.some.inj hread)
      refine ⟨x, obj, T, hres, (addGomoryCuts_separate_iff hres).mpr fun i hi hfrac => ?_⟩
      rw [hrows, Nat.lt_one_iff] at hi
      rw [FractionalRow, hi, hrhs] at hfrac
      exact absurd hfrac.1 (by decide +kernel)
    | unbounded x => cases hread
    | infeasible => cases hread
  · obtain ⟨res, hres, hread⟩ := Option.bind_eq_some_iff.mp
      (show (simplexSolver 3 evenRow).bind (fun res => res.optimalTableau.map fun T =>
        (T.rows, T.rhs 0, (withCuts evenRow T).constraintCount)) = some (1, 3 / 2, 2) by
          decide +kernel)
    cases res with
    | optimal x obj T =>
      simp only [SimplexResult.optimalTableau, Option.map_some, Option.some.injEq,
        Prod.mk.injEq] at hread
      obtain ⟨hrows, hrhs, hcount⟩ := hread
      refine ⟨x, obj, T, hres, hrhs, hcount, fun hseparate => ?_⟩
      refine (addGomoryCuts_separate_iff hres).mp hseparate 0 (hrows ▸ Nat.one_pos) ?_
      rw [FractionalRow, hrhs]
      decide +kernel
    | unbounded x => cases hread
    | infeasible => cases hread

/-! ## A point that is cut off -/

/-- The coefficients are integers, the bounds are natural numbers. -/
structure IntegerData (p : LpProblem) : Prop where
  constraints : ∀ i < p.constraintCount, ∀ j < p.variableCount, ∃ z : ℤ, p.constraints i j = z
  objective : ∀ j < p.variableCount, ∃ z : ℤ, p.objective j = z
  bounds : ∀ i < p.constraintCount, ∃ b : ℕ, p.bounds i = b

theorem evenRow_integerData : IntegerData evenRow where
  constraints := fun i hi j _ => by
    obtain rfl := Nat.lt_one_iff.mp hi
    exact ⟨if j = 0 then 2 else 1, by by_cases hj : j = 0 <;> simp [evenRow, hj,
      LpProblem.addConstraint, LpProblem.setObjective, createProblem]⟩
  objective := fun j _ => ⟨if j = 0 then 1 else 0, by by_cases hj : j = 0 <;> simp [evenRow, hj,
    LpProblem.addConstraint, LpProblem.setObjective, createProblem]⟩
  bounds := fun i hi => by
    obtain rfl := Nat.lt_one_iff.mp hi
    exact ⟨3, by decide +kernel⟩

/-- What becomes of the point `(0, 3)` and of the basic point in the row that is added. -/
def SimplexResult.cutReadings (p : LpProblem) : SimplexResult → Option (ℕ × ℚ × ℚ × ℚ)
  | .optimal _ _ T =>
    some ((withCuts p T).constraintCount,
      (withCuts p T).lhs 1 (fun j => ((if j = 1 then 3 else 0 : ℕ) : ℚ)),
      (withCuts p T).lhs 1 T.basicValue, (withCuts p T).bounds 1)
  | _ => none

/-- The relaxation is optimal at `(3/2, 0)`, and the row that is added is `x₁ / 2 ≤ 1/2`: it holds
there, and cuts off the integer point `(0, 3)`. -/
theorem addGomoryCuts_cutsOff : IntegerData evenRow ∧ ∃ x obj T,
    simplexSolver 3 evenRow = some (.optimal x obj T) ∧ ¬ CutsSeparate evenRow T ∧
      ∃ k y, evenRow.constraintCount ≤ k ∧ k < (withCuts evenRow T).constraintCount ∧
        (withCuts evenRow T).lhs k T.basicValue ≤ (withCuts evenRow T).bounds k ∧
        IntegerPoint evenRow y ∧
        (withCuts evenRow T).bounds k < (withCuts evenRow T).lhs k (fun j => (y j : ℚ)) := by
  refine ⟨evenRow_integerData, ?_⟩
  obtain ⟨res, hres, hread⟩ := Option.bind_eq_some_iff.mp
    (show (simplexSolver 3 evenRow).bind (SimplexResult.cutReadings evenRow) =
      some (2, 3 / 2, 0, 1 / 2) by decide +kernel)
  cases res with
  | optimal x obj T =>
    simp only [SimplexResult.cutReadings, Option.some.injEq, Prod.mk.injEq] at hread
    obtain ⟨hcount, hpoint, hbasic, hbound⟩ := hread
    have hinteger : IntegerPoint evenRow fun j => if j = 1 then 3 else 0 := by
      rw [IntegerPoint]
      decide +kernel
    have hcut : (withCuts evenRow T).bounds 1 <
        (withCuts evenRow T).lhs 1 (fun j => ((if j = 1 then 3 else 0 : ℕ) : ℚ)) := by
      rw [hbound, hpoint]
      norm_num
    have hlast : 1 < (withCuts evenRow T).constraintCount := by
      rw [hcount]
      decide
    refine ⟨x, obj, T, hres, fun hseparate => ?_, 1, _, le_refl _, hlast, ?_, hinteger, hcut⟩
    · exact absurd ((hseparate 1 (le_refl _) hlast).1 _ hinteger) (not_le.mpr hcut)
    · rw [hbasic, hbound]
      norm_num
  | unbounded x => cases hread
  | infeasible => cases hread

end Solver

end OvaLib
