import Mathlib.Algebra.BigOperators.Group.Finset.Sigma
import Mathlib.Algebra.Order.BigOperators.Group.Finset
import OvaLib.Foundation.Elimination
import OvaLib.Solver.Simplex

/-!
# What the pivot loop preserves

Every tableau of a run is row-equivalent to the initial one, its basic columns are exact unit
columns, and its objective row is the initial objective rewritten. So the *basic point* of the final
tableau, each basic column at the right-hand side of its row, solves the constraints with its own
slacks and has the stored objective value.

The vector handed to the caller is not that point. The extraction loop accepts any column that looks
like a unit column, so a non-basic column can be read too. `Tableau.phantom` is the amount read into
such a column, and the read-out is the basic point plus the phantoms. Whether the caller's vector is
feasible and has the stored objective is then a question about the phantoms and about the signs of
the final right-hand sides.

## Why equations and not row operations

The invariant does not say how a tableau came about. It says that its rows, read as equations in the
structural and slack variables, have the same solutions as those of the first tableau, and that on
these solutions its objective row is the objective. A pivot keeps both because it adds multiples of
rows. What the later modules need is a consequence of the equations at one chosen point: the basic
point here, a feasible point for the bound, an integer point for the cuts.

## Main results

* `TableauInv.pivot`, `simplexLoop_inv` — one pivot, and a whole run, keep the invariant
* `TableauInv.readColumn_eq` — the read-out is the basic point plus the phantoms
* `TableauInv.solutionSound_iff` — soundness of the read-out, measured from the basic point
* `simplexSolver_duplicateColumns` — a problem whose stored solution is not sound
-/

namespace OvaLib

namespace Solver

open Finset Foundation

variable {p : LpProblem} {T : Tableau}

namespace Tableau

/-- The residual of row `i` at the point `z` of structural and slack variables. -/
def residual (T : Tableau) (z : ℕ → ℚ) (i : ℕ) : ℚ :=
  Foundation.residual (range T.width) T.width T.data z i

/-- The basic point: each basic column takes the right-hand side of its row. -/
def basicValue (T : Tableau) (j : ℕ) : ℚ :=
  ∑ i ∈ range T.rows, if T.basis i = j then T.rhs i else 0

/-- What the extraction loop reads into column `j` although it is not basic. -/
def phantom (T : Tableau) (j : ℕ) : ℚ :=
  if ∃ i < T.rows, T.basis i = j then 0 else T.readColumn j

theorem pivot_data (T : Tableau) (r c : ℕ) : (T.pivot r c).data = eliminate T.data r c := rfl

@[simp] theorem pivot_rows (T : Tableau) (r c : ℕ) : (T.pivot r c).rows = T.rows := rfl

@[simp] theorem pivot_cols (T : Tableau) (r c : ℕ) : (T.pivot r c).cols = T.cols := rfl

@[simp] theorem pivot_width (T : Tableau) (r c : ℕ) : (T.pivot r c).width = T.width := rfl

@[simp] theorem pivot_basis_self (T : Tableau) (r c : ℕ) : (T.pivot r c).basis r = c := by
  simp [pivot]

theorem pivot_basis_of_ne (T : Tableau) {r i : ℕ} (c : ℕ) (h : i ≠ r) :
    (T.pivot r c).basis i = T.basis i :=
  Function.update_of_ne h _ _

end Tableau

/-- The pair of scans picked a column with negative reduced cost and a row with a usable entry. -/
theorem simplexStep_eq_pivoted {T T' : Tableau} (h : simplexStep T = .pivoted T') :
    ∃ r c, enteringColumn T = some c ∧ leavingRow T c = some r ∧ T' = T.pivot r c ∧
      r < T.rows ∧ c < T.width ∧ 1 / 1000000000 < T.data r c ∧ 0 ≤ T.rhs r / T.data r c := by
  rw [simplexStep] at h
  cases hc : enteringColumn T with
  | none => rw [hc] at h; simp at h
  | some c =>
    cases hr : leavingRow T c with
    | none => rw [hc] at h; simp [hr] at h
    | some r =>
      rw [hc] at h
      simp only [hr] at h
      split at h
      · simp at h
      · obtain ⟨hcw, -⟩ := scanMin_eq_some hc
        obtain ⟨hrr, v, hv, -, -⟩ := scanMin_eq_some hr
        split at hv
        · rename_i hcand
          exact ⟨r, c, rfl, hr, (StepResult.pivoted.inj h).symm, hrr, hcw, hcand.1, hcand.2⟩
        · exact absurd hv (by simp)

/-- A stop at `OPTIMAL` leaves no reduced cost below the tolerance. -/
theorem simplexStep_eq_optimal (h : simplexStep T = .stop .optimal) :
    ∀ j < T.width, -1 / 1000000000 ≤ T.data T.rows j := by
  rw [simplexStep] at h
  cases hc : enteringColumn T with
  | none => exact fun j hj => scanMin_eq_none hc j hj _ rfl
  | some c =>
    rw [hc] at h
    cases hr : leavingRow T c with
    | none => simp [hr] at h
    | some r =>
      simp only [hr] at h
      split at h <;> simp at h

/-! ## The invariant -/

/-- **The invariant of the pivot loop.** The basic columns are exact unit columns with a zero
reduced cost, the equations have the solutions of the initial ones, and at each of these the
objective row says what the initial objective row says. -/
structure TableauInv (p : LpProblem) (T : Tableau) : Prop where
  rows_eq : T.rows = p.constraintCount
  cols_eq : T.cols = p.variableCount
  basis_lt : ∀ i < T.rows, T.basis i < T.width
  /-- A basic column is a unit column, with the reduced cost 0. -/
  unit : ∀ i < T.rows, ∀ k ≤ T.rows, T.data k (T.basis i) = if k = i then 1 else 0
  /-- The equations have the solutions of the constraints with slacks. -/
  solves_iff : ∀ z, (∀ i < T.rows, T.residual z i = 0) ↔
    ∀ i < T.rows, (initialTableau p).residual z i = 0
  /-- The objective row is the objective, on the solutions. -/
  objective_eq : ∀ z, (∀ i < T.rows, T.residual z i = 0) →
    T.residual z T.rows = (initialTableau p).residual z T.rows

theorem initialTableau_inv (p : LpProblem) : TableauInv p (initialTableau p) where
  rows_eq := rfl
  cols_eq := rfl
  basis_lt := fun i hi => Nat.add_lt_add_left hi _
  unit := by
    intro i hi k hk
    simp only [initialTableau] at hi hk ⊢
    rcases Nat.lt_or_eq_of_le hk with h | rfl
    · by_cases hik : k = i
      · simp [hik, hi]
      · have h1 : ¬ i = k := fun h => hik h.symm
        have h2 : ¬ i = p.constraintCount := Nat.ne_of_lt hi
        simp [h, hik, h1, h2]
    · have h1 : ¬ p.constraintCount = i := by omega
      simp [h1]
  solves_iff := fun _ => Iff.rfl
  objective_eq := fun _ _ => rfl

/-- **One pivot keeps the invariant.** -/
theorem TableauInv.pivot (hT : TableauInv p T) {r c : ℕ} (hr : r < T.rows) (hc : c < T.width)
    (hpos : T.data r c ≠ 0) : TableauInv p (T.pivot r c) where
  rows_eq := hT.rows_eq
  cols_eq := hT.cols_eq
  basis_lt := by
    intro i hi
    by_cases h : i = r
    · rw [h, Tableau.pivot_basis_self]; exact hc
    · rw [Tableau.pivot_basis_of_ne T c h]; exact hT.basis_lt i hi
  unit := by
    intro i hi k hk
    by_cases h : i = r
    · rw [h, Tableau.pivot_basis_self, Tableau.pivot_data, eliminate_apply_pivot hpos]
    · have hzero : T.data r (T.basis i) = 0 := by
        rw [hT.unit i hi r (le_of_lt hr), if_neg (Ne.symm h)]
      rw [Tableau.pivot_basis_of_ne T c h, Tableau.pivot_data, eliminate_apply_of_zero hzero]
      exact hT.unit i hi k hk
  solves_iff := fun z => (solves_eliminate_iff (P := (· < T.rows)) hr hpos).trans (hT.solves_iff z)
  objective_eq := by
    intro z hz
    have hold : ∀ i < T.rows, T.residual z i = 0 :=
      (solves_eliminate_iff (P := (· < T.rows)) hr hpos).mp hz
    have hkeep : (T.pivot r c).residual z T.rows = T.residual z T.rows :=
      residual_eliminate_of_solves (hold r hr) (Nat.ne_of_gt hr)
    rw [Tableau.pivot_rows, hkeep]
    exact hT.objective_eq z hold

theorem TableauInv.step (hT : TableauInv p T) {T' : Tableau} (h : simplexStep T = .pivoted T') :
    TableauInv p T' := by
  obtain ⟨r, c, -, -, rfl, hr, hc, hpos, -⟩ := simplexStep_eq_pivoted h
  exact hT.pivot hr hc (ne_of_gt (lt_trans (by norm_num) hpos))

/-- **A whole run keeps the invariant.** -/
theorem simplexLoop_inv {fuel : ℕ} {status : Status} {T' : Tableau} (hT : TableauInv p T)
    (h : simplexLoop fuel T = some (status, T')) : TableauInv p T' := by
  induction fuel generalizing T with
  | zero => simp [simplexLoop] at h
  | succ fuel ih =>
    simp only [simplexLoop] at h
    cases hs : simplexStep T with
    | stop st =>
      rw [hs] at h
      obtain ⟨-, rfl⟩ := Prod.mk.inj (Option.some.inj h)
      exact hT
    | pivoted T₁ => rw [hs] at h; exact ih (hT.step hs) h

/-- A run that answers `OPTIMAL` stopped at a tableau of the loop. -/
theorem simplexSolver_eq_optimal {fuel : ℕ} {x : ℕ → ℚ} {obj : ℚ}
    (h : simplexSolver fuel p = some (.optimal x obj T)) :
    TableauInv p T ∧ x = T.readColumn ∧ obj = storedObjective p T := by
  rw [simplexSolver] at h
  split at h
  · simp at h
  · cases hl : simplexLoop fuel (initialTableau p) with
    | none => rw [hl] at h; simp at h
    | some res =>
      obtain ⟨status, T'⟩ := res
      rw [hl] at h
      have hinv := simplexLoop_inv (initialTableau_inv p) hl
      cases status with
      | optimal =>
        simp only [Option.some.injEq, SimplexResult.optimal.injEq] at h
        obtain ⟨rfl, rfl, rfl⟩ := h
        exact ⟨hinv, rfl, rfl⟩
      | unbounded => simp at h
      | infeasible => simp at h

/-! ## The basic point

Two of the three parts of soundness hold of the basic point without further conditions; the third,
that no value is negative, is what the signs of the right-hand sides are about. -/

theorem TableauInv.basis_injOn (hT : TableauInv p T) {i k : ℕ} (hi : i < T.rows) (hk : k < T.rows)
    (h : T.basis i = T.basis k) : i = k := by
  by_contra hne
  have h1 := hT.unit i hi i (le_of_lt hi)
  have h2 := hT.unit k hk i (le_of_lt hi)
  rw [h, h2, if_neg hne, if_pos rfl] at h1
  exact absurd h1 (by norm_num)

/-- Weighting the columns by the basic point only sees the basic columns. -/
theorem TableauInv.sum_mul_basicValue (hT : TableauInv p T) (f : ℕ → ℚ) :
    ∑ j ∈ range T.width, f j * T.basicValue j = ∑ i ∈ range T.rows, f (T.basis i) * T.rhs i := by
  simp only [Tableau.basicValue, mul_sum]
  rw [sum_comm]
  refine sum_congr rfl fun i hi => ?_
  have hlt := hT.basis_lt i (mem_range.mp hi)
  rw [sum_eq_single_of_mem (T.basis i) (mem_range.mpr hlt)]
  · simp
  · intro j _ hj
    rw [if_neg (Ne.symm hj), mul_zero]

theorem TableauInv.residual_basicValue (hT : TableauInv p T) {k : ℕ} (hk : k < T.rows) :
    T.residual T.basicValue k = 0 := by
  have hsum : ∑ j ∈ range T.width, T.data k j * T.basicValue j = T.rhs k := by
    rw [hT.sum_mul_basicValue, sum_eq_single_of_mem k (mem_range.mpr hk)]
    · rw [hT.unit k hk k (le_of_lt hk), if_pos rfl, one_mul]
    · intro i hi hne
      rw [hT.unit i (mem_range.mp hi) k (le_of_lt hk), if_neg (Ne.symm hne), zero_mul]
  rw [Tableau.residual, Foundation.residual, hsum]
  exact sub_self _

theorem TableauInv.residual_basicValue_objective (hT : TableauInv p T) :
    T.residual T.basicValue T.rows = T.rhs T.rows := by
  have hsum : ∑ j ∈ range T.width, T.data T.rows j * T.basicValue j = 0 := by
    rw [hT.sum_mul_basicValue]
    refine sum_eq_zero fun i hi => ?_
    rw [hT.unit i (mem_range.mp hi) T.rows le_rfl,
      if_neg (Nat.ne_of_gt (mem_range.mp hi)), zero_mul]
  rw [Tableau.residual, Foundation.residual, hsum, sub_zero]
  rfl

/-- The initial rows spell out `A x + s = b`. -/
theorem initialTableau_residual (p : LpProblem) (z : ℕ → ℚ) {i : ℕ} (hi : i < p.constraintCount) :
    (initialTableau p).residual z i =
      p.bounds i - (p.lhs i z + z (p.variableCount + i)) := by
  have hrhs : (initialTableau p).data i (initialTableau p).width = p.bounds i := by
    have h1 : ¬ p.constraintCount = i := by omega
    simp [initialTableau, Tableau.width, hi, h1]
  have hslack : ∑ k ∈ range p.constraintCount,
      (initialTableau p).data i (p.variableCount + k) * z (p.variableCount + k) =
        z (p.variableCount + i) := by
    rw [sum_eq_single_of_mem i (mem_range.mpr hi)]
    · simp [initialTableau, hi]
    · intro k hk hne
      have h1 : ¬ k = p.constraintCount := Nat.ne_of_lt (mem_range.mp hk)
      simp [initialTableau, hi, hne, h1]
  have hstruct : ∑ j ∈ range p.variableCount, (initialTableau p).data i j * z j = p.lhs i z := by
    refine sum_congr rfl fun j hj => ?_
    simp [initialTableau, hi, mem_range.mp hj]
  rw [Tableau.residual, Foundation.residual, hrhs]
  rw [show range (initialTableau p).width = range (p.variableCount + p.constraintCount) from rfl,
    sum_range_add, hstruct, hslack]

/-- The initial objective row is the objective, signed for maximisation. -/
theorem initialTableau_residual_objective (p : LpProblem) (z : ℕ → ℚ) :
    (initialTableau p).residual z p.constraintCount =
      match p.type with
      | .min => -p.objectiveAt z
      | .max => p.objectiveAt z := by
  have hrhs : (initialTableau p).data p.constraintCount (initialTableau p).width = 0 := by
    simp [initialTableau, Tableau.width]
  have hslack : ∑ k ∈ range p.constraintCount,
      (initialTableau p).data p.constraintCount (p.variableCount + k) * z (p.variableCount + k)
        = 0 :=
    sum_eq_zero fun k _ => by simp [initialTableau]
  rw [Tableau.residual, Foundation.residual, hrhs]
  rw [show range (initialTableau p).width = range (p.variableCount + p.constraintCount) from rfl,
    sum_range_add, hslack, add_zero, zero_sub, LpProblem.objectiveAt]
  cases hp : p.type with
  | min =>
    simp only [neg_inj]
    exact sum_congr rfl fun j hj => by simp [initialTableau, hp, mem_range.mp hj]
  | max =>
    rw [← sum_neg_distrib]
    exact sum_congr rfl fun j hj => by simp [initialTableau, hp, mem_range.mp hj]

/-- **The basic point solves the constraints with its own slacks.** -/
theorem TableauInv.lhs_basicValue (hT : TableauInv p T) {i : ℕ} (hi : i < p.constraintCount) :
    p.lhs i T.basicValue + T.basicValue (p.variableCount + i) = p.bounds i := by
  have hsol := (hT.solves_iff T.basicValue).mp fun k hk => hT.residual_basicValue hk
  have h := hsol i (hT.rows_eq ▸ hi)
  rw [initialTableau_residual p _ hi] at h
  linarith

/-- **The basic point has the stored objective value.** -/
theorem TableauInv.objectiveAt_basicValue (hT : TableauInv p T) :
    p.objectiveAt T.basicValue = storedObjective p T := by
  have hobj := hT.objective_eq T.basicValue fun k hk => hT.residual_basicValue hk
  rw [hT.residual_basicValue_objective, hT.rows_eq, initialTableau_residual_objective] at hobj
  rw [storedObjective]
  rw [hT.rows_eq]
  cases hp : p.type with
  | min => rw [hp] at hobj; simp only at hobj ⊢; linarith
  | max => rw [hp] at hobj; simp only at hobj ⊢; linarith

/-! ## The read-out -/

/-- A basic column passes the unit-column test in its own row and in no other. -/
theorem TableauInv.isBasic_basis (hT : TableauInv p T) {i r : ℕ} (hi : i < T.rows)
    (hr : r < T.rows) : T.isBasic (T.basis i) r = true ↔ r = i := by
  have hunit := fun k hk => hT.unit i hi k (le_of_lt hk)
  constructor
  · intro h
    by_contra hne
    simp only [Tableau.isBasic, Bool.and_eq_true, decide_eq_true_eq] at h
    rw [hunit r hr, if_neg hne] at h
    exact absurd h.1 (by norm_num)
  · rintro rfl
    simp only [Tableau.isBasic, Bool.and_eq_true, decide_eq_true_eq, List.all_eq_true,
      List.mem_range, Bool.or_eq_true]
    refine ⟨by rw [hunit r hr, if_pos rfl]; norm_num, fun k hk => ?_⟩
    by_cases hkr : k = r
    · exact Or.inl hkr
    · exact Or.inr (by rw [hunit k hk, if_neg hkr]; norm_num)

theorem TableauInv.readRow_basis (hT : TableauInv p T) {i : ℕ} (hi : i < T.rows) :
    T.readRow (T.basis i) = some i := by
  rw [Tableau.readRow]
  rw [List.find?_range_eq_some]
  exact ⟨(hT.isBasic_basis hi hi).mpr rfl, List.mem_range.mpr hi, fun j hj => by
    have hne : ¬ T.isBasic (T.basis i) j = true := fun h =>
      Nat.ne_of_lt hj ((hT.isBasic_basis hi (lt_trans hj hi)).mp h)
    simpa using hne⟩

theorem TableauInv.basicValue_basis (hT : TableauInv p T) {i : ℕ} (hi : i < T.rows) :
    T.basicValue (T.basis i) = T.rhs i := by
  rw [Tableau.basicValue]
  rw [sum_eq_single_of_mem i (mem_range.mpr hi)]
  · simp
  · intro k hk hne
    exact if_neg fun h => hne (hT.basis_injOn (mem_range.mp hk) hi h)

/-- **The read-out is the basic point plus the phantoms.** -/
theorem TableauInv.readColumn_eq (hT : TableauInv p T) (j : ℕ) :
    T.readColumn j = T.basicValue j + T.phantom j := by
  by_cases hj : ∃ i < T.rows, T.basis i = j
  · obtain ⟨i, hi, rfl⟩ := hj
    have hph : T.phantom (T.basis i) = 0 := if_pos ⟨i, hi, rfl⟩
    rw [hph, hT.basicValue_basis hi, add_zero, Tableau.readColumn, hT.readRow_basis hi]
  · have hzero : T.basicValue j = 0 :=
      sum_eq_zero fun i hi => if_neg fun h => hj ⟨i, mem_range.mp hi, h⟩
    rw [hzero, zero_add, Tableau.phantom, if_neg hj]

/-- The stored solution is sound: non-negative, feasible, and worth the stored objective. -/
structure SolutionSound (p : LpProblem) (x : ℕ → ℚ) (obj : ℚ) : Prop where
  nonneg : ∀ j < p.variableCount, 0 ≤ x j
  feasible : ∀ i < p.constraintCount, p.lhs i x ≤ p.bounds i
  objective : p.objectiveAt x = obj

/-- The read-out of a tableau, measured from its basic point: the values read are non-negative, what
the phantoms use of each row fits in the slack the basic point leaves there, and the phantoms cost
nothing in total. -/
structure ReadoutFits (p : LpProblem) (T : Tableau) : Prop where
  nonneg : ∀ j < p.variableCount, 0 ≤ T.basicValue j + T.phantom j
  slack : ∀ i < p.constraintCount, p.lhs i T.phantom ≤ T.basicValue (p.variableCount + i)
  cost : p.objectiveAt T.phantom = 0

/-- Feasibility of the read-out, measured from the basic point. -/
theorem TableauInv.lhs_readColumn (hT : TableauInv p T) {i : ℕ} (hi : i < p.constraintCount) :
    p.lhs i T.readColumn =
      p.bounds i + (p.lhs i T.phantom - T.basicValue (p.variableCount + i)) := by
  rw [p.lhs_congr i fun j _ => hT.readColumn_eq j, p.lhs_add, ← hT.lhs_basicValue hi]
  ring

/-- The objective of the read-out, measured from the stored one. -/
theorem TableauInv.objectiveAt_readColumn (hT : TableauInv p T) :
    p.objectiveAt T.readColumn = storedObjective p T + p.objectiveAt T.phantom := by
  rw [p.objectiveAt_congr fun j _ => hT.readColumn_eq j, p.objectiveAt_add,
    hT.objectiveAt_basicValue]

/-- **Soundness of a read-out**, measured from the basic point. -/
theorem TableauInv.solutionSound_iff (hT : TableauInv p T) :
    SolutionSound p T.readColumn (storedObjective p T) ↔ ReadoutFits p T := by
  constructor
  · rintro ⟨hnonneg, hfeas, hobj⟩
    refine ⟨fun j hj => hT.readColumn_eq j ▸ hnonneg j hj, fun i hi => ?_, ?_⟩
    · have := hfeas i hi
      rw [hT.lhs_readColumn hi] at this
      linarith
    · rw [hT.objectiveAt_readColumn] at hobj
      linarith
  · rintro ⟨hnonneg, hslack, hcost⟩
    refine ⟨fun j hj => by rw [hT.readColumn_eq]; exact hnonneg j hj, fun i hi => ?_, ?_⟩
    · rw [hT.lhs_readColumn hi]
      have := hslack i hi
      linarith
    · rw [hT.objectiveAt_readColumn, hcost, add_zero]

/-- The two summands of a maximisation over one shared constraint: `x₀ + x₁` subject to
`x₀ + x₁ ≤ 1`. Its final tableau has two equal unit columns. -/
def duplicateColumns : LpProblem :=
  ((createProblem 2).setObjective (fun _ => 1) .max).addConstraint (fun _ => 1) 1

/-- What a caller sees of a result on the first `n` variables. -/
def SimplexResult.readings (n : ℕ) : SimplexResult → Option (List ℚ × ℚ)
  | .optimal x obj _ => some ((List.range n).map x, obj)
  | _ => none

theorem exists_optimal_of_readings {res : Option SimplexResult} {n : ℕ} {v : List ℚ × ℚ}
    (h : res.bind (SimplexResult.readings n) = some v) :
    ∃ x obj T, res = some (.optimal x obj T) ∧ ((List.range n).map x, obj) = v := by
  match res, h with
  | some (.optimal x obj T), h => exact ⟨x, obj, T, rfl, Option.some.inj h⟩

theorem duplicateColumns_lhs (x : ℕ → ℚ) : duplicateColumns.lhs 0 x = x 0 + x 1 := by
  simp [LpProblem.lhs, duplicateColumns, LpProblem.addConstraint, LpProblem.setObjective,
    createProblem, Finset.sum_range_succ]

theorem duplicateColumns_bounds : duplicateColumns.bounds 0 = 1 := by decide +kernel

/-- Both copies of the duplicated column are read as `1`, which overruns the constraint. -/
theorem simplexSolver_duplicateColumns :
    0 < duplicateColumns.constraintCount ∧
      (∀ i < duplicateColumns.constraintCount, 0 ≤ duplicateColumns.bounds i) ∧
      ∃ x obj T, simplexSolver 2 duplicateColumns = some (.optimal x obj T) ∧
        ¬ SolutionSound duplicateColumns x obj := by
  have hrun : (simplexSolver 2 duplicateColumns).bind (SimplexResult.readings 2) =
      some ([1, 1], 1) := by decide +kernel
  obtain ⟨x, obj, T, h, hv⟩ := exists_optimal_of_readings hrun
  refine ⟨by decide, by decide +kernel, x, obj, T, h, fun hs => ?_⟩
  have hx : x 0 = 1 ∧ x 1 = 1 := by simpa [List.range_succ] using congrArg Prod.fst hv
  have hrow := hs.feasible 0 (by decide)
  rw [duplicateColumns_lhs, duplicateColumns_bounds, hx.1, hx.2] at hrow
  exact absurd hrow (by norm_num)

end Solver

end OvaLib
