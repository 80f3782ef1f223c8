import OvaLib.Solver.SimplexTermination

/-!
# When the stored solution is right

`simplex_solver` promises a point that is feasible and worth `objective_value`. Two places of it can
break the promise, and this module says on which problems neither does.

## The two places

*The ratio test* looks at entries above `1e-9` only. A row with a smaller positive entry in the
entering column is passed over, and when that row is the tightest one, the pivot leaves it with a
negative right-hand side. A turn of the loop is *right* (`RightTurn`) when the row the scan takes is
the tightest of **all** rows with a positive entry. From non-negative bounds, right turns keep every
right-hand side non-negative, and this is all they are needed for.

*The extraction loop* names its test `is_basic`, but the basis is stored nowhere, so the test can
only ask whether a column looks like a unit column. Three things can go wrong with a column that
does: it can be a unit column up to `1e-7` only, its reduced cost can be other than zero, and the
value of one row can be read into two columns. `ReadsOnce` excludes the three, for the rows whose
right-hand side is not zero.

## Why the condition says nothing of a basis

The ghost field `Tableau.basis` could tell which of the columns read is *the* basic one, but the
condition does not use it. Where every row is read at most once, and from an exact unit column, the
columns read can themselves be taken for basic: `ReadsOnce.reread` changes the ghost basis to them,
and the invariant of the loop still holds. With that basis no column is read by mistake. So a
variable that happens to be a spare slack of its own row, which the extraction loop reads as well,
does no harm.

## What is not said

The condition is not necessary on every problem. A value read twice is harmless when the column
happens to have no cost and to loosen every tight row, and whether it does is what the constraints
themselves say of the vector. On problems whose costs are all of one sign nothing is harmless, and
the condition is exact.

## Main results

* `Reaches.rhs_nonneg` — right turns keep the right-hand sides non-negative
* `ReadsOnce.reread` — the columns read can be taken for basic
* `simplexSolver_sound_of_readable` — when the stored solution is sound
-/

namespace OvaLib

namespace Solver

open Finset Foundation

variable {p : LpProblem} {T T' : Tableau} {fuel : ℕ} {x : ℕ → ℚ} {obj : ℚ}

/-! ## The tableaus of a call -/

/-- The loop of a call on `p` comes to the tableau `T`. -/
def Reaches (p : LpProblem) (T : Tableau) : Prop :=
  ∃ n, stepsFrom nextTableau n (initialTableau p) = some T

/-- The loop of a call on `p` stops at the tableau `T` because no column enters. -/
structure StopsAt (p : LpProblem) (T : Tableau) : Prop where
  reached : Reaches p T
  noEntering : enteringColumn T = none

theorem Reaches.initial (p : LpProblem) : Reaches p (initialTableau p) := ⟨0, rfl⟩

theorem Reaches.next (h : Reaches p T) (hnext : nextTableau T = some T') : Reaches p T' := by
  obtain ⟨n, hn⟩ := h
  exact ⟨n + 1, by rw [stepsFrom_succ', hn, Option.bind_some, hnext]⟩

/-- A property of the first tableau that each pivot keeps holds of every tableau of the call. -/
theorem Reaches.induction {P : Tableau → Prop} (hinit : P (initialTableau p))
    (hstep : ∀ T T', Reaches p T → P T → nextTableau T = some T' → P T') (h : Reaches p T) :
    P T := by
  have hboth : ∀ T T', Reaches p T ∧ P T → nextTableau T = some T' → Reaches p T' ∧ P T' := by
    intro T T' hT hnext
    exact ⟨hT.1.next hnext, hstep T T' hT.1 hT.2 hnext⟩
  obtain ⟨n, hn⟩ := h
  exact (stepsFrom_induction hboth ⟨.initial p, hinit⟩ hn).2

theorem Reaches.inv (h : Reaches p T) : TableauInv p T := by
  refine h.induction (initialTableau_inv p) ?_
  intro T T' _ hT hnext
  exact hT.step (nextTableau_eq_some.mp hnext)

/-- The loop stops at a tableau that it comes to. -/
theorem simplexLoop_reaches {status : Status} (hT : Reaches p T)
    (h : simplexLoop fuel T = some (status, T')) : Reaches p T' := by
  induction fuel generalizing T with
  | zero => cases h
  | succ fuel ih =>
    rw [simplexLoop] at h
    cases hs : simplexStep T with
    | stop st =>
      rw [hs] at h
      obtain ⟨-, rfl⟩ := Prod.mk.inj (Option.some.inj h)
      exact hT
    | pivoted T₁ =>
      rw [hs] at h
      exact ih (hT.next (nextTableau_eq_some.mpr hs)) h

/-- `OPTIMAL` is the answer where no column enters. -/
theorem enteringColumn_of_optimal (h : simplexStep T = .stop .optimal) :
    enteringColumn T = none := by
  rw [simplexStep] at h
  split at h
  · next hnone => exact hnone
  · next c hc =>
    split at h
    · cases h
    · split at h <;> cases h

/-- **What a call that answers `OPTIMAL` hands back**: the read-out of a tableau it stops at. -/
theorem simplexSolver_stopsAt (h : simplexSolver fuel p = some (.optimal x obj T)) :
    StopsAt p T ∧ x = T.readColumn ∧ obj = storedObjective p T := by
  obtain ⟨-, hx, hobj⟩ := simplexSolver_eq_optimal h
  refine ⟨?_, hx, hobj⟩
  rw [simplexSolver] at h
  split at h
  · cases h
  · cases hl : simplexLoop fuel (initialTableau p) with
    | none =>
      rw [hl] at h
      cases h
    | some out =>
      obtain ⟨status, T₁⟩ := out
      rw [hl] at h
      cases status with
      | optimal =>
        obtain ⟨-, -, rfl⟩ := SimplexResult.optimal.inj (Option.some.inj h)
        exact ⟨simplexLoop_reaches (.initial p) hl, enteringColumn_of_optimal (simplexLoop_stop hl)⟩
      | unbounded => cases h
      | infeasible => cases h

theorem nextTableau_of_noEntering (h : enteringColumn T = none) : nextTableau T = none := by
  rw [nextTableau, simplexStep, h]

/-- A call stops at one tableau. -/
theorem StopsAt.unique (h : StopsAt p T) (h' : StopsAt p T') : T = T' := by
  have hlast : ∀ {S S' : Tableau} {n m : ℕ}, n ≤ m → enteringColumn S = none →
      stepsFrom nextTableau n (initialTableau p) = some S →
        stepsFrom nextTableau m (initialTableau p) = some S' → S = S' := by
    intro S S' n m hnm hstop hn hm
    obtain ⟨k, rfl⟩ := Nat.exists_eq_add_of_le hnm
    rw [stepsFrom_add, hn, Option.bind_some] at hm
    cases k with
    | zero => exact Option.some.inj hm
    | succ k =>
      rw [stepsFrom_succ, nextTableau_of_noEntering hstop] at hm
      cases hm
  obtain ⟨n, hn⟩ := h.reached
  obtain ⟨m, hm⟩ := h'.reached
  rcases le_total n m with hnm | hmn
  · exact hlast hnm h.noEntering hn hm
  · exact (hlast hmn h'.noEntering hm hn).symm

/-! ## Right turns -/

/-- **The turn of the loop at a tableau is right**: where a column enters, the ratio test finds a
row, and no row with a positive entry in that column is tighter, not even one whose entry is too
small for the test. -/
def RightTurn (T : Tableau) : Prop :=
  ∀ c ∈ enteringColumn T, ∃ r ∈ leavingRow T c, ∀ i < T.rows, 0 < T.data i c →
    T.rhs r / T.data r c ≤ T.rhs i / T.data i c

instance (T : Tableau) : Decidable (RightTurn T) :=
  inferInstanceAs (Decidable (∀ c ∈ enteringColumn T, ∃ r ∈ leavingRow T c,
    ∀ i < T.rows, 0 < T.data i c → T.rhs r / T.data r c ≤ T.rhs i / T.data i c))

/-- All turns of a call are right. -/
def RightTurns (p : LpProblem) : Prop := ∀ T, Reaches p T → RightTurn T

/-- **A right turn keeps right-hand sides non-negative.** The row it takes is divided by a positive
entry, and no other row loses more than it has. -/
theorem RightTurn.rhs_nonneg (hturn : RightTurn T) (hnext : nextTableau T = some T')
    (hrhs : ∀ i < T.rows, 0 ≤ T.rhs i) : ∀ i < T'.rows, 0 ≤ T'.rhs i := by
  obtain ⟨r, c, hc, hr, rfl, -, -, -, hratio⟩ :=
    simplexStep_eq_pivoted (nextTableau_eq_some.mp hnext)
  obtain ⟨r', hr', htight⟩ := hturn c hc
  obtain rfl := Option.some.inj (hr'.symm.trans hr)
  intro i hi
  by_cases hir : i = r'
  · have hrow : (T.pivot r' c).rhs i = T.rhs r' / T.data r' c := if_pos hir
    rw [hrow]
    exact hratio
  · have hrow : (T.pivot r' c).rhs i = T.rhs i - T.rhs r' / T.data r' c * T.data i c := if_neg hir
    rw [hrow, sub_nonneg]
    rcases le_or_gt (T.data i c) 0 with hneg | hpos
    · exact (mul_nonpos_of_nonneg_of_nonpos hratio hneg).trans (hrhs i hi)
    · rw [← le_div_iff₀ hpos]
      exact htight i hi hpos

theorem initialTableau_rhs (p : LpProblem) {i : ℕ} (hi : i < p.constraintCount) :
    (initialTableau p).rhs i = p.bounds i := by
  have h1 : ¬ p.constraintCount = i := by omega
  simp [Tableau.rhs, initialTableau, Tableau.width, hi, h1]

/-- **Right turns keep right-hand sides non-negative**, over a whole call. -/
theorem Reaches.rhs_nonneg (hturns : RightTurns p)
    (hbounds : ∀ i < p.constraintCount, 0 ≤ p.bounds i) (h : Reaches p T) :
    ∀ i < T.rows, 0 ≤ T.rhs i := by
  refine Reaches.induction (P := fun T => ∀ i < T.rows, 0 ≤ T.rhs i) (fun i hi => ?_) ?_ h
  · rw [initialTableau_rhs p hi]
    exact hbounds i hi
  · intro T T' hT hrhs hnext
    exact (hturns T hT).rhs_nonneg hnext hrhs

/-- A call whose turns are right answers `OPTIMAL`, as soon as there is something to solve. -/
theorem RightTurns.status_eq {res : SimplexResult} (hturns : RightTurns p)
    (hrows : 0 < p.constraintCount) (hcols : 0 < p.variableCount)
    (h : simplexSolver fuel p = some res) : res.status = .optimal := by
  have hinfeasible := mt (simplexSolver_eq_infeasible_iff h).mp (by omega)
  rw [simplexSolver, if_neg (by omega)] at h
  cases hl : simplexLoop fuel (initialTableau p) with
  | none =>
    rw [hl] at h
    cases h
  | some out =>
    obtain ⟨status, T⟩ := out
    rw [hl] at h
    cases status with
    | optimal =>
      obtain rfl := Option.some.inj h
      rfl
    | infeasible =>
      obtain rfl := Option.some.inj h
      exact absurd rfl hinfeasible
    | unbounded =>
      -- the ratio test of the last turn found no row
      exfalso
      have hstop := simplexLoop_stop hl
      have hturn := hturns T (simplexLoop_reaches (.initial p) hl)
      rw [simplexStep] at hstop
      split at hstop
      · cases hstop
      · next c hc =>
        obtain ⟨r, hr, -⟩ := hturn c hc
        rw [show leavingRow T c = some r from hr] at hstop
        dsimp only at hstop
        split at hstop <;> cases hstop

/-! ## The read-out -/

/-- **Each row is read at most once, and from an exact unit column** whose reduced cost is zero.
Rows whose right-hand side is zero may be read anyhow. -/
structure ReadsOnce (T : Tableau) : Prop where
  exact : ∀ j < T.cols, ∀ r ∈ T.readRow j, T.rhs r ≠ 0 →
    ∀ k < T.rows + 1, T.data k j = if k = r then 1 else 0
  once : ∀ j < T.cols, ∀ j' < T.cols, ∀ r ∈ T.readRow j, r ∈ T.readRow j' → T.rhs r ≠ 0 → j = j'

instance (T : Tableau) : Decidable (ReadsOnce T) :=
  decidable_of_iff
    ((∀ j < T.cols, ∀ r ∈ T.readRow j, T.rhs r ≠ 0 →
        ∀ k < T.rows + 1, T.data k j = if k = r then 1 else 0) ∧
      ∀ j < T.cols, ∀ j' < T.cols, ∀ r ∈ T.readRow j, r ∈ T.readRow j' → T.rhs r ≠ 0 → j = j')
    ⟨fun h => ⟨h.1, h.2⟩, fun h => ⟨h.exact, h.once⟩⟩

theorem readRow_lt {j r : ℕ} (h : r ∈ T.readRow j) : r < T.rows :=
  List.mem_range.mp (List.mem_of_find?_eq_some h)

theorem readColumn_of_readRow {j r : ℕ} (h : r ∈ T.readRow j) : T.readColumn j = T.rhs r := by
  rw [Tableau.readColumn, show T.readRow j = some r from h]

theorem exists_readRow {j : ℕ} (h : T.readColumn j ≠ 0) : ∃ r ∈ T.readRow j, T.rhs r ≠ 0 := by
  cases hr : T.readRow j with
  | none =>
    rw [Tableau.readColumn, hr] at h
    exact absurd rfl h
  | some r =>
    rw [readColumn_of_readRow hr] at h
    exact ⟨r, rfl, h⟩

open Classical in
/-- The basis that the read-out suggests: a row whose value is read belongs to the column it is read
into, and the other rows stay with theirs. -/
noncomputable def readBasis (T : Tableau) (i : ℕ) : ℕ :=
  if h : ∃ j < T.cols, i ∈ T.readRow j ∧ T.rhs i ≠ 0 then h.choose else T.basis i

/-- The tableau with the basis that its read-out suggests. -/
noncomputable def reread (T : Tableau) : Tableau := { T with basis := readBasis T }

theorem readBasis_eq (h : ReadsOnce T) {j r : ℕ} (hj : j < T.cols) (hr : r ∈ T.readRow j)
    (hne : T.rhs r ≠ 0) : readBasis T r = j := by
  have hread : ∃ j < T.cols, r ∈ T.readRow j ∧ T.rhs r ≠ 0 := ⟨j, hj, hr, hne⟩
  obtain ⟨hcol, hrow, -⟩ := hread.choose_spec
  rw [readBasis, dif_pos hread]
  exact h.once _ hcol _ hj r hrow hr hne

/-- **The columns read can be taken for basic.** The equations do not depend on the basis, and the
columns read are unit columns. -/
theorem ReadsOnce.reread (h : ReadsOnce T) (hT : TableauInv p T) : TableauInv p (reread T) where
  rows_eq := hT.rows_eq
  cols_eq := hT.cols_eq
  solves_iff := hT.solves_iff
  objective_eq := hT.objective_eq
  basis_lt := by
    intro i hi
    change readBasis T i < T.width
    by_cases hread : ∃ j < T.cols, i ∈ T.readRow j ∧ T.rhs i ≠ 0
    · obtain ⟨j, hj, hr, hne⟩ := hread
      rw [readBasis_eq h hj hr hne]
      exact hj.trans_le (Nat.le_add_right _ _)
    · rw [readBasis, dif_neg hread]
      exact hT.basis_lt i hi
  unit := by
    intro i hi k hk
    change T.data k (readBasis T i) = _
    by_cases hread : ∃ j < T.cols, i ∈ T.readRow j ∧ T.rhs i ≠ 0
    · obtain ⟨j, hj, hr, hne⟩ := hread
      rw [readBasis_eq h hj hr hne]
      exact h.exact j hj i hr hne k (Nat.lt_succ_of_le hk)
    · rw [readBasis, dif_neg hread]
      exact hT.unit i hi k hk

/-- With that basis nothing is read by mistake. -/
theorem ReadsOnce.phantom_eq_zero (h : ReadsOnce T) {j : ℕ} (hj : j < T.cols) :
    (Solver.reread T).phantom j = 0 := by
  rw [Tableau.phantom]
  split
  · rfl
  · next hnot =>
    by_contra hne
    obtain ⟨r, hr, hrhs⟩ := exists_readRow (T := T) hne
    exact hnot ⟨r, readRow_lt hr, readBasis_eq h hj hr hrhs⟩

/-- A basic point is non-negative where the right-hand sides are. -/
theorem basicValue_nonneg (hrhs : ∀ i < T.rows, 0 ≤ T.rhs i) (j : ℕ) : 0 ≤ T.basicValue j := by
  refine sum_nonneg fun i hi => ?_
  split
  · exact hrhs i (mem_range.mp hi)
  · exact le_rfl

/-- **A read-out is sound** where nothing is read by mistake and no right-hand side is negative. -/
theorem TableauInv.sound_of_phantom (hT : TableauInv p T) (hrhs : ∀ i < T.rows, 0 ≤ T.rhs i)
    (hphantom : ∀ j < p.variableCount, T.phantom j = 0) :
    SolutionSound p T.readColumn (storedObjective p T) := by
  refine hT.solutionSound_iff.mpr ⟨fun j hj => ?_, fun i _ => ?_, ?_⟩
  · rw [hphantom j hj, add_zero]
    exact basicValue_nonneg hrhs j
  · have hzero : p.lhs i T.phantom = 0 := by
      refine sum_eq_zero fun j hj => ?_
      rw [hphantom j (mem_range.mp hj), mul_zero]
    rw [hzero]
    exact basicValue_nonneg hrhs _
  · refine sum_eq_zero fun j hj => ?_
    rw [hphantom j (mem_range.mp hj), mul_zero]

/-- Where every row is read at most once, the read-out is sound. -/
theorem ReadsOnce.sound (h : ReadsOnce T) (hT : TableauInv p T)
    (hrhs : ∀ i < T.rows, 0 ≤ T.rhs i) :
    SolutionSound p T.readColumn (storedObjective p T) := by
  refine (h.reread hT).sound_of_phantom hrhs fun j hj => ?_
  rw [← hT.cols_eq] at hj
  exact h.phantom_eq_zero hj

/-- Where only the basic columns are read, every row is read at most once. -/
theorem TableauInv.readsOnce (hT : TableauInv p T)
    (hphantom : ∀ j < p.variableCount, T.phantom j = 0) : ReadsOnce T := by
  have hbasic : ∀ j < T.cols, ∀ r ∈ T.readRow j, T.rhs r ≠ 0 → T.basis r = j := by
    intro j hj r hr hne
    by_contra hnot
    have hvalue := hphantom j (hT.cols_eq ▸ hj)
    rw [Tableau.phantom, if_neg ?_, readColumn_of_readRow hr] at hvalue
    · exact hne hvalue
    · rintro ⟨i, hi, rfl⟩
      obtain rfl := Option.some.inj (hr.symm.trans (hT.readRow_basis hi))
      exact hnot rfl
  refine ⟨fun j hj r hr hne k hk => ?_, fun j hj j' hj' r hr hr' hne => ?_⟩
  · rw [← hbasic j hj r hr hne]
    exact hT.unit r (readRow_lt hr) k (Nat.le_of_lt_succ hk)
  · exact (hbasic j hj r hr hne).symm.trans (hbasic j' hj' r hr' hne)

/-! ## The stored solution -/

/-- **The condition on a problem**: all turns of a call on it are right, and where the call stops,
each row is read at most once. -/
structure Readable (p : LpProblem) : Prop where
  turns : RightTurns p
  readsOnce : ∀ T, StopsAt p T → ReadsOnce T

/-- The costs of all variables have one sign. -/
def OneSign (p : LpProblem) : Prop :=
  (∀ j < p.variableCount, 0 < p.objective j) ∨ ∀ j < p.variableCount, p.objective j < 0

/-- Non-negative values that cost nothing in total, at costs of one sign, are all zero. -/
theorem OneSign.eq_zero (hsign : OneSign p) (hx : ∀ j < p.variableCount, 0 ≤ x j)
    (hcost : p.objectiveAt x = 0) : ∀ j < p.variableCount, x j = 0 := by
  intro j hj
  rw [LpProblem.objectiveAt] at hcost
  rcases hsign with hpos | hneg
  · have hterm : ∀ k ∈ range p.variableCount, 0 ≤ p.objective k * x k := fun k hk =>
      mul_nonneg (hpos k (mem_range.mp hk)).le (hx k (mem_range.mp hk))
    have hzero := (sum_eq_zero_iff_of_nonneg hterm).mp hcost j (mem_range.mpr hj)
    exact (mul_eq_zero.mp hzero).resolve_left (hpos j hj).ne'
  · have hterm : ∀ k ∈ range p.variableCount, p.objective k * x k ≤ 0 := fun k hk =>
      mul_nonpos_of_nonpos_of_nonneg (hneg k (mem_range.mp hk)).le (hx k (mem_range.mp hk))
    have hzero := (sum_eq_zero_iff_of_nonpos hterm).mp hcost j (mem_range.mpr hj)
    exact (mul_eq_zero.mp hzero).resolve_left (hneg j hj).ne

/-- What is read by mistake is not negative where the right-hand sides are not. -/
theorem phantom_nonneg (hrhs : ∀ i < T.rows, 0 ≤ T.rhs i) (j : ℕ) : 0 ≤ T.phantom j := by
  rw [Tableau.phantom]
  split
  · exact le_rfl
  · cases hr : T.readRow j with
    | none =>
      rw [Tableau.readColumn, hr]
    | some r =>
      rw [readColumn_of_readRow hr]
      exact hrhs r (readRow_lt hr)

/-- **The stored solution is sound on readable problems**, and with costs of one sign, on no others:
then every value that is read by mistake makes the objective wrong. -/
theorem simplexSolver_sound_of_readable (hbounds : ∀ i < p.constraintCount, 0 ≤ p.bounds i)
    (h : simplexSolver fuel p = some (.optimal x obj T)) :
    (Readable p → SolutionSound p x obj) ∧
      (RightTurns p → OneSign p → (SolutionSound p x obj ↔ Readable p)) := by
  obtain ⟨hstop, rfl, rfl⟩ := simplexSolver_stopsAt h
  have hT := hstop.reached.inv
  have hsound : Readable p → SolutionSound p T.readColumn (storedObjective p T) := by
    intro hreadable
    have hrhs := hstop.reached.rhs_nonneg hreadable.turns hbounds
    exact (hreadable.readsOnce T hstop).sound hT hrhs
  refine ⟨hsound, fun hturns hsign => ⟨fun hs => ⟨hturns, fun T' hT' => ?_⟩, hsound⟩⟩
  obtain rfl := hstop.unique hT'
  have hrhs := hstop.reached.rhs_nonneg hturns hbounds
  have hcost := (hT.solutionSound_iff.mp hs).cost
  exact hT.readsOnce (hsign.eq_zero (fun j _ => phantom_nonneg hrhs j) hcost)

/-! ## Problems that can be checked -/

/-- The problem has no negative bound, a call on it ends within a number of turns, and all of its
tableaus have a property. -/
def CallHas (P : Tableau → Prop) (turns : ℕ) (q : LpProblem) : Prop :=
  (∀ i < q.constraintCount, 0 ≤ q.bounds i) ∧
    (stepsFrom nextTableau turns (initialTableau q)).isNone = true ∧
      ∀ k < turns, ∀ T ∈ stepsFrom nextTableau k (initialTableau q), P T

instance (P : Tableau → Prop) [DecidablePred P] (turns : ℕ) (q : LpProblem) :
    Decidable (CallHas P turns q) :=
  inferInstanceAs (Decidable ((∀ i < q.constraintCount, 0 ≤ q.bounds i) ∧
    (stepsFrom nextTableau turns (initialTableau q)).isNone = true ∧
      ∀ k < turns, ∀ T ∈ stepsFrom nextTableau k (initialTableau q), P T))

theorem CallHas.of_reaches {P : Tableau → Prop} {turns : ℕ} (h : CallHas P turns p)
    (hT : Reaches p T) : P T := by
  obtain ⟨-, hend, hall⟩ := h
  obtain ⟨k, hk⟩ := hT
  refine hall k (not_le.mp fun hle => ?_) T hk
  rw [stepsFrom_none_of_le hle (Option.isNone_iff_eq_none.mp hend)] at hk
  cases hk

/-- The turn at the tableau is right, and where no column enters, each row is read at most once. -/
def TableauReadable (T : Tableau) : Prop :=
  RightTurn T ∧ (enteringColumn T = none → ReadsOnce T)

instance (T : Tableau) : Decidable (TableauReadable T) :=
  inferInstanceAs (Decidable (RightTurn T ∧ (enteringColumn T = none → ReadsOnce T)))

theorem CallHas.readable {turns : ℕ} (h : CallHas TableauReadable turns p) : Readable p :=
  ⟨fun _ hT => (h.of_reaches hT).1, fun _ hT => (h.of_reaches hT.reached).2 hT.noEntering⟩

/-- The second problem of the repository's tests: maximise `2 x₀ + 3 x₁ + 4 x₂` subject to
`x₀ + x₁ + x₂ ≤ 30`, `2 x₀ + 2 x₁ + 5 x₂ ≤ 100` and `4 x₀ + x₁ + 2 x₂ ≤ 60`. -/
def threeProducts : LpProblem :=
  ((((createProblem 3).setObjective (fun j => [2, 3, 4].getD j 0) .max).addConstraint
    (fun j => [1, 1, 1].getD j 0) 30).addConstraint (fun j => [2, 2, 5].getD j 0) 100).addConstraint
    (fun j => [4, 1, 2].getD j 0) 60

theorem callHas_threeProducts : CallHas TableauReadable 3 threeProducts := by decide +kernel

/-- Two pivots lead to the vertex `(0, 50/3, 40/3)`, which is worth `310/3`. -/
theorem simplexSolver_sound_of_readable_threeProducts : ∃ x obj T,
    simplexSolver 3 threeProducts = some (.optimal x obj T) ∧
      x 0 = 0 ∧ x 1 = 50 / 3 ∧ x 2 = 40 / 3 ∧ obj = 310 / 3 ∧
      SolutionSound threeProducts x obj ∧ Readable threeProducts := by
  obtain ⟨x, obj, T, h, hv⟩ := exists_optimal_of_readings
    (show (simplexSolver 3 threeProducts).bind (SimplexResult.readings 3) =
      some ([0, 50 / 3, 40 / 3], 310 / 3) by decide +kernel)
  have hvalues : (x 0 = 0 ∧ x 1 = 50 / 3 ∧ x 2 = 40 / 3) ∧ obj = 310 / 3 := by
    simpa [List.range_succ] using hv
  have hreadable := callHas_threeProducts.readable
  obtain ⟨hsound, hexact⟩ := simplexSolver_sound_of_readable callHas_threeProducts.1 h
  have hsign : OneSign threeProducts := .inl (by decide +kernel)
  have hright := hexact hreadable.turns hsign
  exact ⟨x, obj, T, h, hvalues.1.1, hvalues.1.2.1, hvalues.1.2.2, hvalues.2,
    hsound hreadable, hright.mp (hsound hreadable)⟩

end Solver

end OvaLib
