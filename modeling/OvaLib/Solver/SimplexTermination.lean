import OvaLib.Foundation.Steps
import OvaLib.Solver.SimplexBound

/-!
# The termination of the simplex solver

A tableau of a run is determined by its basis, of which there are finitely many, and a pivot on a
row whose right-hand side is not zero raises the corner. So the loop can only go on forever over
pivots on rows whose right-hand side is zero. It has no rule against that and does go on forever on
a problem of three rows, whose first tableau comes back after six pivots.

## The argument

The corner of a tableau is the objective at its basic point, and the basic point is the only
solution of the equations in which the other columns are zero. So two tableaus of a run with the
same basis have the same corner. Along a run the corner never goes down, and a pivot that is not
degenerate raises it, after which no earlier basis can come back. There are as many such pivots as
there are bases, at most; if from some iteration on none is degenerate, the loop ends.

The right-hand sides need not be positive for this. The row of a pivot is chosen with a ratio that
is not negative, and it is that ratio, times the reduced cost, by which the corner moves.

The cycle is computed, as the numbers in it are small: the seventh tableau agrees with the first in
every entry that is read.

## Main results

* `TableauInv.corner_eq` — tableaus with the same basis have the same corner
* `simplexStep_corner_lt` — a pivot that is not degenerate raises the corner
* `simplexLoop_ends_iff` — the loop ends exactly when its degenerate pivots do
* `simplexLoop_cycles` — a problem on which it does not end
-/

namespace OvaLib

namespace Solver

open Finset Foundation

variable {p : LpProblem} {T T' : Tableau}

/-! ## The loop as a run -/

/-- The tableau after one iteration, if it pivots. -/
def nextTableau (T : Tableau) : Option Tableau :=
  match simplexStep T with
  | .stop _ => none
  | .pivoted T' => some T'

theorem nextTableau_eq_some : nextTableau T = some T' ↔ simplexStep T = .pivoted T' := by
  rw [nextTableau]
  cases simplexStep T with
  | stop status => simp
  | pivoted T₁ => rw [Option.some.injEq, StepResult.pivoted.injEq]

/-- The loop returns with the fuel `n` when it stops within `n` pivots. -/
theorem simplexLoop_isSome_iff (n : ℕ) (T : Tableau) :
    (simplexLoop n T).isSome ↔ stepsFrom nextTableau n T = none := by
  induction n generalizing T with
  | zero => simp [simplexLoop]
  | succ n ih =>
    rw [simplexLoop, stepsFrom_succ, nextTableau]
    cases simplexStep T with
    | stop status => simp
    | pivoted T₁ => exact ih T₁

/-- The loop is about to pivot on a row whose right-hand side is zero. -/
def Tableau.Degenerate (T : Tableau) : Prop :=
  ∃ c r, enteringColumn T = some c ∧ leavingRow T c = some r ∧ T.rhs r = 0

/-- **A pivot that is not degenerate raises the corner.** -/
theorem simplexStep_corner_lt (h : simplexStep T = .pivoted T') (hne : ¬T.Degenerate) :
    T.rhs T.rows < T'.rhs T'.rows := by
  rw [simplexStep] at h
  split at h
  · exact absurd h (by simp)
  · next c hc =>
    split at h
    · exact absurd h (by simp)
    · next r hr =>
      split at h
      · exact absurd h (by simp)
      · obtain rfl := StepResult.pivoted.inj h
        obtain ⟨-, v, hv, hlow, -⟩ := scanMin_eq_some hc
        obtain rfl := Option.some.inj hv
        obtain ⟨hrow, w, hw, -, -⟩ := scanMin_eq_some hr
        split at hw
        · next hcand =>
          have hpos : 0 < T.data r c := lt_trans (by norm_num) hcand.1
          have hrhs : T.rhs r ≠ 0 := fun hzero => hne ⟨c, r, hc, hr, hzero⟩
          have hratio : 0 < T.rhs r / T.data r c :=
            lt_of_le_of_ne hcand.2 (div_ne_zero hrhs hpos.ne').symm
          have hreduced : T.data T.rows c < 0 := lt_trans hlow (by norm_num)
          have hcorner : (T.pivot r c).rhs T.rows =
              T.rhs T.rows - T.rhs r / T.data r c * T.data T.rows c := if_neg hrow.ne'
          rw [Tableau.pivot_rows, hcorner]
          have hprod := mul_neg_of_pos_of_neg hratio hreduced
          linarith
        · exact absurd hw (by simp)

/-! ## The basis determines the corner

What is used of the finiteness of the bases is that a sequence of them repeats. -/

/-- At the basic point of a tableau with the same basis, the objective row only shows its corner. -/
theorem TableauInv.sum_reduced_basicValue (hT : TableauInv p T) (hT' : TableauInv p T')
    (hbasis : ∀ i < p.constraintCount, T.basis i = T'.basis i) :
    ∑ j ∈ range T'.width, T'.data T'.rows j * T.basicValue j = 0 := by
  have hwidth : T'.width = T.width := by
    rw [Tableau.width, Tableau.width, hT.cols_eq, hT.rows_eq, hT'.cols_eq, hT'.rows_eq]
  rw [hwidth, hT.sum_mul_basicValue]
  refine sum_eq_zero fun i hi => ?_
  have hi' : i < p.constraintCount := hT.rows_eq ▸ mem_range.mp hi
  have hrow : i < T'.rows := hT'.rows_eq ▸ hi'
  rw [hbasis i hi', hT'.unit i hrow T'.rows le_rfl, if_neg hrow.ne', zero_mul]

/-- **Tableaus with the same basis have the same corner.** -/
theorem TableauInv.corner_eq (hT : TableauInv p T) (hT' : TableauInv p T')
    (hbasis : ∀ i < p.constraintCount, T.basis i = T'.basis i) :
    T.rhs T.rows = T'.rhs T'.rows := by
  have hsolves : ∀ i < T.rows, T.residual T.basicValue i = 0 :=
    fun i hi => hT.residual_basicValue hi
  have hsolves' : ∀ i < T'.rows, T'.residual T.basicValue i = 0 := by
    refine (hT'.solves_iff _).mpr fun i hi => ?_
    rw [hT'.rows_eq, ← hT.rows_eq] at hi
    exact (hT.solves_iff _).mp hsolves i hi
  have hone := hT.objectiveAt_eq hsolves
  have htwo := hT'.objectiveAt_eq hsolves'
  rw [hT.sum_reduced_basicValue hT fun _ _ => rfl, sub_zero] at hone
  rw [hT.sum_reduced_basicValue hT' hbasis, sub_zero] at htwo
  exact hone.symm.trans htwo

/-- The basis of a tableau, as one of finitely many. -/
def basisKey (p : LpProblem) (T : Tableau) :
    Fin p.constraintCount → Fin (p.variableCount + p.constraintCount + 1) :=
  fun i => Fin.ofNat _ (T.basis i)

theorem TableauInv.basis_eq_of_key (hT : TableauInv p T) (hT' : TableauInv p T')
    (hkey : basisKey p T = basisKey p T') : ∀ i < p.constraintCount, T.basis i = T'.basis i := by
  intro i hi
  have hlt := hT.basis_lt i (hT.rows_eq ▸ hi)
  have hlt' := hT'.basis_lt i (hT'.rows_eq ▸ hi)
  rw [Tableau.width, hT.cols_eq, hT.rows_eq] at hlt
  rw [Tableau.width, hT'.cols_eq, hT'.rows_eq] at hlt'
  have hval := congrArg Fin.val (congrFun hkey ⟨i, hi⟩)
  rwa [basisKey, basisKey, Fin.val_ofNat, Fin.val_ofNat,
    Nat.mod_eq_of_lt (Nat.lt_succ_of_lt hlt), Nat.mod_eq_of_lt (Nat.lt_succ_of_lt hlt')] at hval

/-! ## When the loop ends -/

/-- **The loop ends exactly when its degenerate pivots do**: from some iteration on, no pivot is
on a row whose right-hand side is zero. -/
theorem simplexLoop_ends_iff (p : LpProblem) :
    (∃ fuel, (simplexLoop fuel (initialTableau p)).isSome) ↔
      ∃ N, ∀ n ≥ N, ∀ T, stepsFrom nextTableau n (initialTableau p) = some T → ¬T.Degenerate := by
  constructor
  · rintro ⟨fuel, hfuel⟩
    refine ⟨fuel, fun n hn T hT => ?_⟩
    rw [stepsFrom_none_of_le hn ((simplexLoop_isSome_iff fuel _).mp hfuel)] at hT
    exact absurd hT (by simp)
  · rintro ⟨N, hN⟩
    have hstep : ∀ T T', TableauInv p T → nextTableau T = some T' → TableauInv p T' :=
      fun T T' hT h => hT.step (nextTableau_eq_some.mp h)
    have hkey : ∀ T T', TableauInv p T → TableauInv p T' → basisKey p T = basisKey p T' →
        T.rhs T.rows = T'.rhs T'.rows := fun T T' hT hT' h =>
      hT.corner_eq hT' (hT.basis_eq_of_key hT' h)
    obtain ⟨n, hn⟩ := ends_of_increasing (basisKey p) (fun T => T.rhs T.rows) hstep hkey
      (initialTableau_inv p) fun n hn T T' hT h =>
        simplexStep_corner_lt (nextTableau_eq_some.mp h) (hN n hn T hT)
    exact ⟨n, (simplexLoop_isSome_iff n _).mpr hn⟩

/-! ## A problem on which it does not end -/

/-- Maximise `10 x₀ - 57 x₁ - 9 x₂ - 24 x₃` under two constraints with the bound 0, and `x₀ ≤ 1`.
Every pivot of the loop is on a row whose right-hand side is zero. -/
def cyclingProblem : LpProblem :=
  ((((createProblem 4).setObjective (fun j => [10, -57, -9, -24].getD j 0) .max).addConstraint
    (fun j => [1 / 2, -11 / 2, -5 / 2, 9].getD j 0) 0).addConstraint
    (fun j => [1 / 2, -3 / 2, -1 / 2, 1].getD j 0) 0).addConstraint (fun j => [1].getD j 0) 1

/-- The entries of a tableau and its basis. -/
def Tableau.readings (T : Tableau) : ℕ × ℕ × List (List ℚ) × List ℕ :=
  (T.rows, T.cols,
    (List.range (T.rows + 1)).map fun i => (List.range (T.width + 1)).map (T.data i),
    (List.range T.rows).map T.basis)

/-- Nothing is written outside the tableau. -/
structure Tableau.Framed (T : Tableau) : Prop where
  /-- The entries beyond the tableau are those it began with. -/
  data : ∀ i j, T.rows < i ∨ T.width < j → T.data i j = 0
  basis : ∀ i, T.rows ≤ i → T.basis i = T.cols + i

theorem framed_initialTableau (p : LpProblem) : (initialTableau p).Framed := by
  refine ⟨fun i j hout => ?_, fun i _ => rfl⟩
  have hout' : p.constraintCount < i ∨ p.variableCount + p.constraintCount < j := hout
  rw [initialTableau]
  dsimp only
  split
  · rw [if_neg (by omega), if_neg (by omega), if_neg (by omega)]
  · exact if_neg (by omega)

theorem Tableau.Framed.pivot (h : T.Framed) {r c : ℕ} (hr : r < T.rows) :
    (T.pivot r c).Framed := by
  refine ⟨fun i j hout => ?_, fun i hi => ?_⟩
  · rw [Tableau.pivot_rows, Tableau.pivot_width] at hout
    rw [Tableau.pivot]
    dsimp only
    rcases hout with hrow | hcol
    · rw [if_neg (by omega), h.data i j (.inl hrow), h.data i c (.inl hrow), mul_zero, sub_zero]
    · rw [h.data r j (.inr hcol), zero_div, zero_mul, sub_zero, h.data i j (.inr hcol)]
      exact ite_self 0
  · rw [Tableau.pivot_rows] at hi
    rw [Tableau.pivot_basis_of_ne T c (by omega), h.basis i hi]
    rfl

theorem Tableau.Framed.next (h : T.Framed) (hnext : nextTableau T = some T') : T'.Framed := by
  obtain ⟨r, c, -, -, rfl, hr, -⟩ := simplexStep_eq_pivoted (nextTableau_eq_some.mp hnext)
  exact h.pivot hr

/-- A tableau is what it shows. -/
theorem Tableau.Framed.ext (h : T.Framed) (h' : T'.Framed) (hsame : T.readings = T'.readings) :
    T = T' := by
  obtain ⟨rows, cols, data, basis⟩ := T
  obtain ⟨rows', cols', data', basis'⟩ := T'
  obtain ⟨hrows, hrest⟩ := Prod.mk.inj hsame
  obtain ⟨hcols, hrest⟩ := Prod.mk.inj hrest
  obtain ⟨hdata, hbasis⟩ := Prod.mk.inj hrest
  dsimp only at hrows hcols
  subst hrows hcols
  congr 1
  · funext i j
    by_cases hout : rows < i ∨ cols + rows < j
    · exact (h.data i j hout).trans (h'.data i j hout).symm
    · have hrow := List.map_inj_left.mp hdata i (List.mem_range.mpr (by dsimp only; omega))
      exact List.map_inj_left.mp hrow j
        (List.mem_range.mpr (by rw [Tableau.width]; dsimp only; omega))
  · funext i
    by_cases hout : rows ≤ i
    · exact (h.basis i hout).trans (h'.basis i hout).symm
    · exact List.map_inj_left.mp hbasis i (List.mem_range.mpr (not_le.mp hout))

/-- After six pivots the first tableau is back. -/
theorem cyclingProblem_returns :
    stepsFrom nextTableau 6 (initialTableau cyclingProblem) =
      some (initialTableau cyclingProblem) := by
  have hread : (stepsFrom nextTableau 6 (initialTableau cyclingProblem)).map Tableau.readings =
      some (initialTableau cyclingProblem).readings := by decide +kernel
  obtain ⟨T, hT, hsame⟩ := Option.map_eq_some_iff.mp hread
  have hframed : T.Framed := stepsFrom_induction (fun _ _ h hnext => h.next hnext)
    (framed_initialTableau cyclingProblem) hT
  rw [hT, hframed.ext (framed_initialTableau cyclingProblem) hsame]

/-- **The loop does not end on this problem**, whose bounds are not negative, whatever the fuel. -/
theorem simplexLoop_cycles :
    0 < cyclingProblem.constraintCount ∧
      (∀ i < cyclingProblem.constraintCount, 0 ≤ cyclingProblem.bounds i) ∧
      ∀ fuel, simplexLoop fuel (initialTableau cyclingProblem) = none := by
  refine ⟨by decide, by decide +kernel, fun fuel => ?_⟩
  rw [← Option.not_isSome_iff_eq_none, simplexLoop_isSome_iff]
  exact never_ends_of_return cyclingProblem_returns fuel

end Solver

end OvaLib
