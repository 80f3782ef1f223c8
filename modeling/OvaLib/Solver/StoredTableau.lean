import OvaLib.Solver.SimplexStorage
import OvaLib.Solver.StoredProblem

/-!
# The simplex solver on the heap

The matrix in which `simplex_solver` pivots shows, step for step, the tableau of the solver on
paper. So the solver on the heap ends as that one does, or finds no memory for the tableau or the
solution; nothing but the tableau it hands out is left behind.

## The simulation

`Shows` couples a matrix on the heap to a tableau of `Simplex`, entry by entry. Each part of an
iteration has a rule: the two scans find what the scans on paper find, and the pivot turns a matrix
that shows a tableau into one that shows the next. The pivot on paper computes all entries at once,
and the one in memory goes through the rows in place, using the pivot row after it was scaled; the
rule for it says that the entries which are still to be read are the old ones.

The theorem about the loop is by induction on the turns. It has no hypothesis about the problem, not
even that the loop ends: the fuel is the same for both.

## What the solver leaves

Four ends are possible besides running out of fuel, and `Ends` lists them. Only two of them hand out
a tableau, and then it is one more block to free for the caller. Only one of them changes the
problem, by putting a solution and its value there; the array for the solution is made before the
values are known, and an array that the problem has already is used again.

Out of memory, the answer is `INFEASIBLE` without a tableau, which is also the answer to a problem
without rows. A caller cannot tell the two apart, so `Ends` does not either, except that the first
needs an allocation that fails.

## Main results

* `runs_fillTableau`, `runs_pivotTableau` — the matrix shows the tableau, before and after a pivot
* `runs_simplexSolver` — the solver on the heap and the solver on paper
-/

namespace OvaLib

namespace Solver

namespace ProblemStorage

open Foundation Matrix.Storage

variable {ρ : Type} {sure : Prop} {s F : Multiset (ℕ × List (Cell ℚ))} {m : MatrixRep ℚ}
  {T : Tableau} {i j : ℕ}

/-- The matrix shows the tableau: it has a row and a column more, for the objective and the
right-hand sides, and the same entries. Nothing is said of where the matrix is. -/
structure Shows (m : MatrixRep ℚ) (T : Tableau) : Prop where
  rows : m.rows = T.rows + 1
  cols : m.cols = T.width + 1
  /-- The entries of the rows and of the right-hand sides, and the objective row. -/
  entries : ∀ i ≤ T.rows, ∀ j ≤ T.width, m.entries i j = T.data i j

theorem Shows.runs_entry (h : Shows m T) (hm : m.blocks ≤ s) (hi : i ≤ T.rows) (hj : j ≤ T.width)
    {Q : ℚ → Multiset (ℕ × List (Cell ℚ)) → Prop} (hQ : Q (T.data i j) s) :
    Runs sure (m.fields.entry i j) s Q := by
  have hrows := h.rows
  have hcols := h.cols
  refine MatrixRep.runs_entry hm (by omega) (by omega) ?_
  rwa [h.entries i hi j hj]

theorem Shows.lastColumn (h : Shows m T) : lastColumn m.fields = T.width := by
  have hcols := h.cols
  rw [ProblemStorage.lastColumn]
  dsimp only [MatrixRep.fields]
  omega

/-! ## The scans -/

/-- **The column that enters.** The scan carries the least reduced cost so far and its column, as
the scan on paper does. -/
theorem runs_findPivotColumn (h : Shows m T) (hm : m.blocks ≤ s)
    {Q : Option ℕ → Multiset (ℕ × List (Cell ℚ)) → Prop} (hQ : Q (enteringColumn T) s) :
    Runs sure (findPivotColumn m.fields T.rows T.cols) s Q := by
  refine runs_bind (runs_forRange (fun j best s' => s = s' ∧
    best = scanMinFrom (fun j => some (T.data T.rows j)) (-1 / 1000000000) j) ?_ ⟨rfl, rfl⟩ ?_)
  · rintro j best _ hj ⟨rfl, rfl⟩
    exact runs_bind (h.runs_entry hm (Nat.le_refl _) (Nat.le_of_lt hj) (runs_pure ⟨rfl, rfl⟩))
  · rintro best _ ⟨rfl, rfl⟩
    exact runs_pure hQ

/-- **The row that leaves.** Rows whose entry is at most the tolerance, or whose ratio is negative,
are passed over in memory as they are on paper; of equal ratios the first stays. -/
theorem runs_findPivotRow (h : Shows m T) (hm : m.blocks ≤ s) {c : ℕ} (hc : c ≤ T.width)
    {Q : Option ℕ → Multiset (ℕ × List (Cell ℚ)) → Prop} (hQ : Q (leavingRow T c) s) :
    Runs sure (findPivotRow m.fields T.rows c) s Q := by
  refine runs_bind (runs_forRange (fun i best s' => s = s' ∧ best = scanMinFrom
    (fun i => if 1 / 1000000000 < T.data i c ∧ 0 ≤ T.rhs i / T.data i c then
      some (T.rhs i / T.data i c) else none) dblMax i) ?_ ⟨rfl, rfl⟩ ?_)
  · rintro i best _ hi ⟨rfl, rfl⟩
    have hi' : i ≤ T.rows := Nat.le_of_lt hi
    refine runs_bind (h.runs_entry hm hi' hc ?_)
    rw [h.lastColumn]
    by_cases hpositive : T.data i c > 1 / 1000000000
    · rw [if_pos hpositive]
      refine runs_bind (h.runs_entry hm hi' (Nat.le_refl _) ?_)
      refine runs_bind (h.runs_entry hm hi' hc (runs_pure ⟨rfl, ?_⟩))
      by_cases hratio : 0 ≤ T.rhs i / T.data i c
      · rw [scanMinFrom_succ_some (if_pos ⟨hpositive, hratio⟩)]
        exact if_congr (and_iff_right hratio) rfl rfl
      · rw [scanMinFrom_succ_none (if_neg fun hand => hratio hand.2)]
        exact if_neg fun hand => hratio hand.1
    · rw [if_neg hpositive, scanMinFrom_succ_none (if_neg fun hand => hpositive hand.1)]
      exact runs_pure ⟨rfl, rfl⟩
  · rintro best _ ⟨rfl, rfl⟩
    exact runs_pure hQ

/-! ## The solution

The values are found column by column, and stored in the array of the problem. -/

/-- The other rows of a column that looks like a unit vector are near 0. -/
theorem runs_columnIsBasic (h : Shows m T) (hm : m.blocks ≤ s) (hj : j ≤ T.width) {r : ℕ}
    {Q : Bool → Multiset (ℕ × List (Cell ℚ)) → Prop}
    (hQ : Q ((List.range T.rows).all fun rr => rr = r || |T.data rr j| ≤ 1 / 10000000) s) :
    Runs sure (columnIsBasic m.fields T.rows j r) s Q := by
  refine runs_forRange (fun i basic s' => s = s' ∧ basic =
    (List.range i).all fun rr => rr = r || |T.data rr j| ≤ 1 / 10000000) ?_ ⟨rfl, rfl⟩ ?_
  · rintro i basic _ hi ⟨rfl, rfl⟩
    rw [List.range_succ, List.all_append]
    by_cases hr : i = r
    · rw [if_neg fun hand => hand.2 hr]
      exact runs_pure ⟨rfl, by simp [hr]⟩
    · split
      · next hand =>
        refine runs_bind (h.runs_entry hm (Nat.le_of_lt hi) hj (runs_pure ⟨rfl, ?_⟩))
        rw [hand.1]
        simp [hr]
      · next hand =>
        have hfalse := Bool.eq_false_of_not_eq_true fun hbasic => hand ⟨hbasic, hr⟩
        exact runs_pure ⟨rfl, by rw [hfalse, Bool.false_and]⟩
  · rintro basic _ ⟨rfl, rfl⟩
    exact hQ

/-- What is found among the first rows. The loop of the source stops at the first row that it reads
a value from, and a column that it reads nothing from has the value 0; that is `find?` with 0 for
none. -/
def valueUpTo (T : Tableau) (j r : ℕ) : ℚ := ((List.range r).find? (T.isBasic j)).elim 0 T.rhs

theorem readColumn_eq (T : Tableau) (j : ℕ) : T.readColumn j = valueUpTo T j T.rows := by
  rw [Tableau.readColumn, valueUpTo, Tableau.readRow]
  cases (List.range T.rows).find? (T.isBasic j) <;> rfl

theorem find?_range_succ (p : ℕ → Bool) (r : ℕ) : (List.range (r + 1)).find? p =
    ((List.range r).find? p).or (if p r then some r else none) := by
  rw [List.range_succ, List.find?_append, List.find?_singleton]

/-- **The value of a variable is put into the solution.** The matrix is only read, so it may be
anywhere in the frame. -/
theorem runs_extractVariable (h : Shows m T) {b n : ℕ} {f : ℕ → ℚ}
    (hs : s = pointsTo b (numbers n f) + F) (hm : m.blocks ≤ F) (hj : j ≤ T.width) (hn : j < n)
    {Q : Unit → Multiset (ℕ × List (Cell ℚ)) → Prop}
    (hQ : Q () (pointsTo b (numbers n (Function.update f j (T.readColumn j))) + F)) :
    Runs sure (extractVariable m.fields T.rows (start b) j) s Q := by
  subst hs
  have hlen : ∀ g : ℕ → ℚ, j < (numbers n g).length := by
    intro g
    rwa [length_numbers]
  rw [readColumn_eq] at hQ
  refine runs_bind (runs_setField rfl (hlen f) ?_)
  rw [numbers_set]
  refine runs_bind (runs_forRange (fun r found s =>
    found = ((List.range r).find? (T.isBasic j)).isSome ∧
      s = pointsTo b (numbers n (Function.update f j (valueUpTo T j r))) + F) ?_ ⟨rfl, rfl⟩ ?_)
  · rintro r found _ hr ⟨rfl, rfl⟩
    have hle : m.blocks ≤ pointsTo b (numbers n (Function.update f j (valueUpTo T j r))) + F :=
      le_add_left hm
    have hnext : valueUpTo T j (r + 1) = (((List.range r).find? (T.isBasic j)).or
        (if T.isBasic j r then some r else none)).elim 0 T.rhs := by
      rw [valueUpTo, find?_range_succ]
    rw [find?_range_succ, hnext]
    rcases hbefore : (List.range r).find? (T.isBasic j) with _ | r'
    · have hzero : valueUpTo T j r = 0 := by rw [valueUpTo, hbefore, Option.elim_none]
      rw [hzero] at hle ⊢
      rw [Option.none_or, Option.isSome_none, if_neg Bool.false_ne_true]
      refine runs_bind (h.runs_entry hle (Nat.le_of_lt hr) hj ?_)
      have hbasic : T.isBasic j r = (decide (|T.data r j - 1| < 1 / 10000000) &&
        (List.range T.rows).all fun rr => rr = r || |T.data rr j| ≤ 1 / 10000000) := rfl
      split
      · next hone =>
        refine runs_bind (runs_columnIsBasic h hle hj ?_)
        rw [decide_eq_true hone, Bool.true_and] at hbasic
        rw [← hbasic]
        split
        · next hfound =>
          refine runs_bind (h.runs_entry hle (Nat.le_of_lt hr) (Nat.le_of_eq h.lastColumn) ?_)
          refine runs_bind (runs_setField rfl (hlen _) (runs_pure ⟨rfl, ?_⟩))
          rw [numbers_set, Function.update_idem, h.lastColumn, Option.elim_some]
          rfl
        · next hfound => exact runs_pure ⟨rfl, rfl⟩
      · next hone =>
        rw [decide_eq_false hone, Bool.false_and] at hbasic
        rw [hbasic, if_neg Bool.false_ne_true]
        exact runs_pure ⟨rfl, rfl⟩
    · have hfound : valueUpTo T j r = T.rhs r' := by rw [valueUpTo, hbefore, Option.elim_some]
      rw [Option.some_or, Option.isSome_some, if_pos rfl, hfound]
      exact runs_pure ⟨rfl, rfl⟩
  · rintro found _ ⟨rfl, rfl⟩
    exact runs_pure hQ

/-! ## The pivot -/

theorem copyRow_of_lt (e : Matrix.Block ℚ) (src : ℕ → ℚ) {len y : ℕ} (hy : y < len) :
    e.copyRow i src len i y = src y := if_pos ⟨rfl, hy⟩

theorem copyRow_of_le (e : Matrix.Block ℚ) (src : ℕ → ℚ) {len y : ℕ} (hy : len ≤ y) :
    e.copyRow i src len i y = e i y := if_neg fun hand => absurd hand.2 (Nat.not_lt.mpr hy)

theorem copyRow_of_ne (e : Matrix.Block ℚ) (src : ℕ → ℚ) {len x y : ℕ} (hx : x ≠ i) :
    e.copyRow i src len x y = e x y := if_neg fun hand => hx hand.1

theorem put_entries (e : Matrix.Block ℚ) : (m.put e).entries = e := rfl

/-- The row of the pivot is divided. Each entry is read before it is written, so the row may be
divided in place. -/
theorem runs_scaleRow {r : ℕ} (hr : r < m.rows) {v : ℚ} (hs : s = m.blocks + F)
    {Q : Unit → Multiset (ℕ × List (Cell ℚ)) → Prop}
    (hQ : Q () ((m.put (m.entries.copyRow r (fun j => m.entries r j / v) m.cols)).blocks + F)) :
    Runs sure (forRange m.cols (fun j _ => do
      m.fields.setEntry r j ((← m.fields.entry r j) / v)) ()) s Q := by
  refine runs_fillRow hs r (fun j => m.entries r j / v) (fun j hj => ?_) hQ
  refine runs_bind (runs_entryPut hr hj _ ?_)
  refine runs_setPut hr hj _ ?_
  rw [copyRow_of_le _ _ (Nat.le_refl j)]

/-- A multiple of the row of the pivot is taken from another row. The factor is read once, before
the loop writes the entry it comes from. -/
theorem runs_clearRow {r c : ℕ} (hr : r < m.rows) (hc : c < m.cols) (hi : i < m.rows)
    (hir : r ≠ i) (hs : s = m.blocks + F) {Q : Unit → Multiset (ℕ × List (Cell ℚ)) → Prop}
    (hQ : Q () ((m.put (m.entries.copyRow i
      (fun j => m.entries i j - m.entries r j * m.entries i c) m.cols)).blocks + F)) :
    Runs sure (do
      let factor ← m.fields.entry i c
      forRange m.cols (fun j _ => do
        m.fields.setEntry i j ((← m.fields.entry i j) - (← m.fields.entry r j) * factor)) ()) s
      Q := by
  subst hs
  refine runs_bind (MatrixRep.runs_entry (Multiset.le_add_right _ _) hi hc ?_)
  refine runs_fillRow rfl i (fun j => m.entries i j - m.entries r j * m.entries i c)
    (fun j hj => ?_) hQ
  refine runs_bind (runs_entryPut hi hj _ ?_)
  refine runs_bind (runs_entryPut hr hj _ ?_)
  refine runs_setPut hi hj _ ?_
  rw [copyRow_of_le _ _ (Nat.le_refl j), copyRow_of_ne _ _ hir]

/-- Row `i` of the pivot, from rows that have the pivot's row divided. -/
theorem pivot_data_of_ne {r c : ℕ} (hi : i ≠ r) :
    (T.pivot r c).data i j = T.data i j - T.data r j / T.data r c * T.data i c := if_neg hi

theorem pivot_data_self {r c : ℕ} : (T.pivot r c).data r j = T.data r j / T.data r c := if_pos rfl

/-- **The pivot in place is the pivot on paper.** The invariant of the loop over the rows is that
those it has passed are the new ones, and the others, but for the row of the pivot, the old ones. -/
theorem runs_pivotTableau (h : Shows m T) (hs : s = m.blocks + F) {r c : ℕ} (hr : r < T.rows)
    (hc : c ≤ T.width) {Q : Unit → Multiset (ℕ × List (Cell ℚ)) → Prop}
    (hQ : ∀ e, Shows (m.put e) (T.pivot r c) → Q () ((m.put e).blocks + F)) :
    Runs sure (pivotTableau m.fields T.rows r c (T.data r c)) s Q := by
  have hrows := h.rows
  have hcols := h.cols
  have hwidth : m.fields.cols.toNat = m.cols := Int.toNat_natCast _
  have hr' : r < m.rows := by omega
  have hc' : c < m.cols := by omega
  rw [pivotTableau, hwidth]
  refine runs_bind (runs_scaleRow hr' hs ?_)
  -- the rows before `i` are those of the pivot
  refine runs_forRange (fun i _ s => ∃ e : Matrix.Block ℚ, s = (m.put e).blocks + F ∧
    ∀ x ≤ T.rows, ∀ y ≤ T.width, e x y =
      if x < i ∨ x = r then (T.pivot r c).data x y else T.data x y) ?_ ⟨_, rfl, ?_⟩ ?_
  · rintro i ⟨⟩ _ hi ⟨e, rfl, he⟩
    by_cases hir : i = r
    · rw [if_neg (not_not.mpr hir)]
      refine runs_pure ⟨e, rfl, fun x hx y hy => ?_⟩
      rw [he x hx y hy]
      exact if_congr (by omega) rfl rfl
    · rw [if_pos hir]
      have hi' : i < m.rows := by omega
      refine runs_clearRow (m := m.put e) hr' hc' hi' (Ne.symm hir) rfl
        ⟨_, rfl, fun x hx y hy => ?_⟩
      by_cases hxi : x = i
      · subst hxi
        have hy' : y < (m.put e).cols := hcols ▸ Nat.lt_succ_of_le hy
        have hrow : ∀ y ≤ T.width, e x y = T.data x y := by
          intro y hy
          rw [he x hx y hy, if_neg (by omega)]
        rw [if_pos (.inl (Nat.lt_succ_self x)), copyRow_of_lt _ _ hy', put_entries,
          pivot_data_of_ne hir, hrow y hy, hrow c hc, he r (Nat.le_of_lt hr) y hy,
          if_pos (.inr rfl), pivot_data_self]
      · rw [copyRow_of_ne _ _ hxi, put_entries, he x hx y hy]
        exact if_congr (by omega) rfl rfl
  · intro x hx y hy
    by_cases hxr : x = r
    · subst hxr
      rw [copyRow_of_lt _ _ (by omega), if_pos (.inr rfl), pivot_data_self, h.entries x hx y hy]
    · rw [copyRow_of_ne _ _ hxr, if_neg (by omega), h.entries x hx y hy]
  · rintro ⟨⟩ _ ⟨e, rfl, he⟩
    refine hQ e ⟨hrows, hcols, fun x hx y hy => ?_⟩
    exact (he x hx y hy).trans (if_pos (.inl (Nat.lt_succ_of_le hx)))

/-! ## The first tableau -/

section

variable {p : ProblemRep} {S : SolvedProblem}

/-- A row of the first tableau. -/
theorem initialTableau_row (P : LpProblem) (hi : i < P.constraintCount) (e : Matrix.Block ℚ)
    (he : e i j = 0) :
    (((e.copyRow i (P.constraints i) P.variableCount).set i (P.variableCount + i) 1).set i
      (P.variableCount + P.constraintCount) (P.bounds i)) i j = (initialTableau P).data i j := by
  rw [initialTableau]
  dsimp only
  rw [if_pos hi, Matrix.Block.set, Matrix.Block.set]
  by_cases hlast : j = P.variableCount + P.constraintCount
  · rw [if_pos ⟨rfl, hlast⟩, if_neg (by omega), if_neg (by omega), if_pos hlast]
  · rw [if_neg fun hand => hlast hand.2]
    by_cases hslack : j = P.variableCount + i
    · rw [if_pos ⟨rfl, hslack⟩, if_neg (by omega), if_pos hslack]
    · rw [if_neg fun hand => hslack hand.2]
      by_cases hcol : j < P.variableCount
      · rw [copyRow_of_lt _ _ hcol, if_pos hcol]
      · rw [copyRow_of_le _ _ (Nat.le_of_not_lt hcol), if_neg hcol, if_neg hslack, if_neg hlast,
          he]

/-- The objective row of the first tableau. -/
theorem initialTableau_objective (P : LpProblem) (hj : j < P.variableCount) :
    (initialTableau P).data P.constraintCount j =
      if P.type = .min then P.objective j else -P.objective j := by
  rw [initialTableau]
  dsimp only
  rw [if_neg (Nat.lt_irrefl _), if_pos ⟨rfl, hj⟩]
  cases P.type <;> rfl

/-- **The tableau is filled.** The matrix is zero at first, as `create_matrix` leaves it, so only
the entries that are not zero have to be written: coefficients, slacks, right-hand sides and costs.
-/
theorem runs_fillTableau (hS : p.Represents S) (hp : p.blocks ≤ F)
    (hrows : m.rows = p.constraintCount + 1)
    (hcols : m.cols = p.objective.size + p.constraintCount + 1)
    (hzero : m.entries = Matrix.zeroBlock) (hs : s = m.blocks + F)
    {Q : Unit → Multiset (ℕ × List (Cell ℚ)) → Prop}
    (hQ : ∀ e, Shows (m.put e) (initialTableau S.problem) → Q () ((m.put e).blocks + F)) :
    Runs sure (fillTableau p.fields p.constraints.fields m.fields p.objective.fields
      p.bounds.fields p.constraintCount p.objective.size) s Q := by
  have hvars := hS.variableCount
  have hcount := hS.constraintCount
  have hcount_le := p.count_le
  have hcap := p.capacity_le
  have hwidth := p.cols_eq
  have hlast : lastColumn m.fields = p.objective.size + p.constraintCount := by
    rw [lastColumn]
    dsimp only [MatrixRep.fields]
    omega
  have hle : ∀ e : Matrix.Block ℚ, p.blocks ≤ (m.put e).blocks + F := by
    intro e
    exact le_add_left hp
  rw [fillTableau, hlast]
  -- the rows before `i` are those of the first tableau
  refine runs_bind (runs_forRange (fun i _ s => ∃ e : Matrix.Block ℚ, s = (m.put e).blocks + F ∧
    ∀ x y, y ≤ p.objective.size + p.constraintCount →
      e x y = if x < i then (initialTableau S.problem).data x y else 0) ?_ ⟨_, hs, ?_⟩ ?_)
  · rintro i ⟨⟩ _ hi ⟨e, rfl, he⟩
    have hi' : i < m.rows := by omega
    refine runs_bind (runs_fillRow (m := m.put e) rfl i (S.problem.constraints i)
      (fun j hj => ?_) ?_)
    · refine runs_bind (MatrixRep.runs_entry (ProblemRep.constraints_le.trans (hle _))
        (by omega) (by omega) ?_)
      rw [hS.constraints i hi j hj]
      exact runs_setPut (m := m) hi' (by omega) _ rfl
    refine runs_bind (runs_setPut (m := m) hi' (by omega) _ ?_)
    refine runs_bind ((VectorRep.copies_data (ProblemRep.bounds_le.trans (hle _))).reads i
      (by omega) _ ?_)
    refine runs_setPut (m := m) hi' (by omega) _ ⟨_, rfl, fun x y hy => ?_⟩
    by_cases hx : x = i
    · subst hx
      rw [if_pos (Nat.lt_succ_self x), hS.bounds x hi, ← hvars, ← hcount]
      refine initialTableau_row S.problem (by omega) e ?_
      rw [he x y hy, if_neg (Nat.lt_irrefl x)]
    · rw [Matrix.set_of_ne (.inl hx), Matrix.set_of_ne (.inl hx), copyRow_of_ne _ _ hx,
        put_entries, he x y hy]
      exact if_congr (by omega) rfl rfl
  · intro x y hy
    rw [if_neg (Nat.not_lt_zero x), hzero]
    rfl
  · rintro ⟨⟩ _ ⟨e, rfl, he⟩
    have htype : p.fields.type = typeNumber .min ↔ S.problem.type = .min := by
      rw [hS.type]
      show typeNumber p.type = _ ↔ _
      cases p.type <;> simp [typeNumber]
    refine runs_fillRow (m := m.put e) rfl p.constraintCount
      (fun j => if S.problem.type = .min then S.problem.objective j else -S.problem.objective j)
      (fun j hj => ?_) ?_
    · refine runs_bind ((VectorRep.copies_data (ProblemRep.objective_le.trans (hle _))).reads j hj
        _ ?_)
      refine runs_setPut (m := m) (by omega) (by omega) _ ?_
      rw [hS.objective j hj, if_congr htype rfl rfl]
      rfl
    · have hwidthT : (initialTableau S.problem).width = p.objective.size + p.constraintCount :=
        congrArg₂ (· + ·) hvars hcount
      refine hQ _ ⟨hrows.trans (congrArg (· + 1) hcount.symm), ?_, fun x hx y hy => ?_⟩
      · rw [hwidthT]
        exact hcols
      rw [hwidthT] at hy
      have hx' : x ≤ p.constraintCount := hx.trans_eq hcount
      rw [put_entries, put_entries]
      by_cases hobjective : x = p.constraintCount
      · subst hobjective
        by_cases hcol : y < p.objective.size
        · rw [copyRow_of_lt _ _ hcol, ← hcount]
          exact (initialTableau_objective S.problem (by omega)).symm
        · rw [copyRow_of_le _ _ (Nat.le_of_not_lt hcol), he _ y hy, if_neg (Nat.lt_irrefl _),
            initialTableau]
          dsimp only
          rw [if_neg (by omega), if_neg (by omega)]
      · rw [copyRow_of_ne _ _ hobjective, he x y hy, if_pos (by omega)]

/-! ## The loop -/

/-- The problem with a solution. -/
def ProblemRep.solved (p : ProblemRep) (b : ℕ) (f : ℕ → ℚ) (value : ℚ) : ProblemRep :=
  { p with
    solution := some (b, f)
    objectiveValue := value }

/-- The blocks of a solved problem but for its solution. The array of the solution is what the
extraction writes, and these are its frame. -/
def ProblemRep.around (p : ProblemRep) (b : ℕ) (value : ℚ) : Multiset (ℕ × List (Cell ℚ)) :=
  pointsTo p.impl (p.solved b 0 value).implCells + (p.constraints.blocks + (p.bounds.blocks +
    (p.objective.blocks + pointsTo p.object [.pointer (start p.impl)])))

theorem ProblemRep.blocks_impl (p : ProblemRep) : p.blocks =
    pointsTo p.impl p.implCells + (p.constraints.blocks + (p.bounds.blocks +
      (p.objective.blocks + (pointsTo p.object [.pointer (start p.impl)] +
        p.solutionBlocks)))) := by
  rw [ProblemRep.blocks, ProblemRep.header]
  ac_rfl

theorem ProblemRep.blocks_solved (p : ProblemRep) (b : ℕ) (f : ℕ → ℚ) (value : ℚ) :
    (p.solved b f value).blocks = pointsTo b (numbers p.objective.size f) + p.around b value := by
  simp only [ProblemRep.around, ProblemRep.solved, ProblemRep.blocks, ProblemRep.header,
    ProblemRep.solutionBlocks, ProblemRep.implCells, ProblemRep.solutionPointer, Option.elim_some,
    Option.bind_some]
  ac_rfl

theorem ProblemRep.Represents.solved (hS : p.Represents S) (b : ℕ) {f g : ℕ → ℚ}
    (hfg : ∀ j < p.objective.size, f j = g j) (value : ℚ) :
    (p.solved b f value).Represents ⟨S.problem, some g, value⟩ :=
  ⟨hS.variableCount, hS.constraintCount, hS.type, hS.constraints, hS.objective, hS.bounds,
    .inr ⟨b, f, g, rfl, rfl, hfg⟩, rfl⟩

/-- **The array for the solution**: the one that the problem has, or a new one. Its cells may hold
anything yet, so the rule speaks of some values `f`. -/
theorem runs_solutionArray (hs : s = p.blocks + F)
    {Q : Option Pointer → Multiset (ℕ × List (Cell ℚ)) → Prop}
    (hnone : ¬ sure → Q none (p.blocks + F))
    (hsome : ∀ b f, Q (start b) ((p.solved b f p.objectiveValue).blocks + F)) :
    Runs sure (solutionArray p.fields p.objective.size) s Q := by
  subst hs
  have hpointer : p.fields.solution = p.solution.bind fun x => start x.1 := rfl
  rw [solutionArray, hpointer]
  rcases hsolution : p.solution with _ | ⟨b, f⟩
  · have hset : ∀ q, (p.implCells.set 7 (.pointer q)) = [.pointer (start p.constraints.object),
        .pointer (start p.objective.object), .pointer (start p.bounds.object),
        .int (typeNumber p.type), .int p.objective.size, .int p.constraintCount,
        .int p.bounds.size, .pointer q, .number p.objectiveValue] := fun q => rfl
    have hlen : 7 < p.implCells.length := by simp [ProblemRep.implCells]
    rw [Option.bind_none, if_pos rfl, p.blocks_impl, add_assoc]
    refine runs_bind (runs_calloc (fun hsure => ?_) fun b => ?_)
    · refine runs_bind (runs_setField rfl hlen (runs_pure ?_))
      have himpl : p.implCells.set 7 (.pointer none) = p.implCells := by
        rw [hset, ProblemRep.implCells, ProblemRep.solutionPointer, hsolution]
        rfl
      rw [himpl, ← add_assoc, ← p.blocks_impl]
      exact hnone hsure
    · refine runs_bind (runs_setField (add_left_comm _ _ _) hlen (runs_pure ?_))
      have hdone := hsome b 0
      rw [p.blocks_solved, ProblemRep.around] at hdone
      rw [numbers_zero, ProblemRep.solutionBlocks, hsolution, Option.elim_none, add_zero, hset]
      convert hdone using 1
      ac_rfl
  · rw [Option.bind_some, if_neg (start_ne_none _)]
    have hsame := hsome b f
    rw [ProblemRep.solved, ← hsolution] at hsame
    exact runs_pure hsame

/-- **The answer of an optimal tableau is put into the problem.** The value is negated for a
minimum, where the objective row holds the costs as they are. -/
theorem runs_extract (hS : p.Represents S) (h : Shows m T) (hrows : T.rows = p.constraintCount)
    (hcols : T.cols = p.objective.size) (b : ℕ) (f : ℕ → ℚ) (value : ℚ)
    (hs : s = (p.solved b f value).blocks + (m.blocks + F))
    {Q : Option (Status × Option Pointer) → Multiset (ℕ × List (Cell ℚ)) → Prop}
    (hQ : ∀ p' : ProblemRep, p'.object = p.object →
      p'.Represents ⟨S.problem, some T.readColumn, storedObjective S.problem T⟩ →
      Q (some (.optimal, start m.object)) (p'.blocks + (m.blocks + F))) :
    Runs sure (do
      forRange p.objective.size (fun i _ =>
        extractVariable m.fields p.constraintCount (start b) i) ()
      setCell (start p.impl) 8 (.number (← m.fields.entry p.constraintCount (lastColumn m.fields)))
      if p.fields.type = typeNumber .min then
        setCell (start p.impl) 8 (.number (-(← numberAt (start p.impl) 8)))
      return some (.optimal, start m.object)) s Q := by
  subst hs
  have htype : p.fields.type = typeNumber .min ↔ S.problem.type = .min := by
    rw [hS.type]
    show typeNumber p.type = _ ↔ _
    cases p.type <;> simp [typeNumber]
  rw [p.blocks_solved, add_assoc, ← hrows]
  refine runs_bind (runs_forRange (fun i _ s => s = pointsTo b
    (numbers p.objective.size (splice T.readColumn f i)) + (p.around b value + (m.blocks + F)))
    ?_ ?_ ?_)
  · rintro i ⟨⟩ _ hi rfl
    refine runs_extractVariable h rfl (le_add_left (Multiset.le_add_right _ _)) ?_ hi ?_
    · rw [Tableau.width]
      omega
    · rw [splice_succ]
  · rw [splice_zero]
  rintro ⟨⟩ _ rfl
  refine runs_bind (h.runs_entry (le_add_left (le_add_left (Multiset.le_add_right _ _)))
    (Nat.le_refl _) (Nat.le_of_eq h.lastColumn) ?_)
  rw [h.lastColumn, ProblemRep.around, add_assoc]
  have hlen : ∀ v : ℚ, 8 < ((p.solved b 0 value).implCells.set 8 (.number v)).length := by
    intro v
    simp [ProblemRep.implCells]
  refine runs_bind (runs_setField (add_left_comm _ _ _) (by simpa using hlen 0) ?_)
  -- what the solver leaves, with the value that it stores
  have hdone : ∀ v, storedObjective S.problem T = v →
      Q (some (.optimal, start m.object)) (pointsTo p.impl ((p.solved b 0 value).implCells.set 8
        (.number v)) + (pointsTo b (numbers p.objective.size
          (splice T.readColumn f p.objective.size)) + (p.constraints.blocks + (p.bounds.blocks +
            (p.objective.blocks + pointsTo p.object [.pointer (start p.impl)])) +
              (m.blocks + F)))) := by
    rintro v rfl
    have hp := hQ
      (p.solved b (splice T.readColumn f p.objective.size) (storedObjective S.problem T))
      rfl (hS.solved b (fun j hj => if_pos hj) _)
    rw [p.blocks_solved, ProblemRep.around, add_assoc, add_assoc] at hp
    rw [add_left_comm]
    exact hp
  by_cases hmin : S.problem.type = .min
  · rw [if_pos (htype.mpr hmin)]
    refine runs_bind (runs_numberAt (p := ⟨p.impl, 0⟩) (Multiset.le_add_right _ _) rfl ?_)
    refine runs_bind (runs_setField rfl (hlen _) (runs_pure ?_))
    rw [List.set_set]
    refine hdone _ ?_
    rw [storedObjective, hmin]
    rfl
  · rw [if_neg fun hif => hmin (htype.mp hif)]
    refine runs_pure (hdone _ ?_)
    rw [storedObjective]
    cases hmax : S.problem.type with
    | min => exact absurd hmax hmin
    | max => rfl

/-- What a run of the solver leaves, from the result of the solver on paper: it has not ended, there
was no memory, there was nothing to solve, it is unbounded, or there is a solution. -/
inductive Ends (sure : Prop) (p : ProblemRep) (S : SolvedProblem)
    (F : Multiset (ℕ × List (Cell ℚ))) (result : Option SimplexResult) :
    Option (Status × Option Pointer) → Multiset (ℕ × List (Cell ℚ)) → Prop
  | running (s : Multiset (ℕ × List (Cell ℚ))) : result = none → Ends sure p S F result none s
  | short : ¬ sure → Ends sure p S F result (some (.infeasible, none)) (p.blocks + F)
  | infeasible : result = some .infeasible →
    Ends sure p S F result (some (.infeasible, none)) (p.blocks + F)
  | unbounded (T : Tableau) (m : MatrixRep ℚ) : result = some (.unbounded T) → Shows m T →
    Ends sure p S F result (some (.unbounded, start m.object)) (p.blocks + (m.blocks + F))
  | optimal (x : ℕ → ℚ) (value : ℚ) (T : Tableau) (p' : ProblemRep) (m : MatrixRep ℚ) :
    result = some (.optimal x value T) → p'.object = p.object →
    p'.Represents ⟨S.problem, some x, value⟩ → Shows m T →
    Ends sure p S F result (some (.optimal, start m.object)) (p'.blocks + (m.blocks + F))

/-- The result of the loop, for the caller. -/
def loopResult (P : LpProblem) : Option (Status × Tableau) → Option SimplexResult
  | none => none
  | some (.optimal, T) => some (.optimal T.readColumn (storedObjective P T) T)
  | some (.unbounded, T) => some (.unbounded T)
  | some (.infeasible, _) => some .infeasible

theorem simplexSolver_eq {P : LpProblem} (h : ¬ (P.constraintCount = 0 ∨ P.variableCount = 0))
    (fuel : ℕ) : Solver.simplexSolver fuel P =
      loopResult P (Solver.simplexLoop fuel (initialTableau P)) := by
  rw [Solver.simplexSolver, if_neg h]
  rcases Solver.simplexLoop fuel (initialTableau P) with _ | ⟨_ | _ | _, T⟩ <;> rfl

/-- **The loop in memory ends as the loop on paper does**, by induction on the turns. The problem is
in the frame until the last turn, which stores the answer in it. -/
theorem runs_simplexLoop (hS : p.Represents S) {fuel : ℕ} {T : Tableau} {m : MatrixRep ℚ}
    (h : Shows m T) (hrows : T.rows = p.constraintCount) (hcols : T.cols = p.objective.size)
    (hs : s = p.blocks + (m.blocks + F)) :
    Runs sure (simplexLoop p.fields (start m.object) m.fields p.constraintCount p.objective.size
      fuel) s (Ends sure p S F (loopResult S.problem (Solver.simplexLoop fuel T))) := by
  induction fuel generalizing T m s with
  | zero => exact runs_pure (.running _ rfl)
  | succ fuel ih =>
    subst hs
    have hm : m.blocks ≤ p.blocks + (m.blocks + F) := le_add_left (Multiset.le_add_right _ _)
    rw [simplexLoop, ← hrows, ← hcols]
    refine runs_bind (runs_findPivotColumn h hm ?_)
    rw [Solver.simplexLoop, simplexStep]
    rcases hcolumn : enteringColumn T with _ | c
    · dsimp only
      have hdone : ∀ p' : ProblemRep, p'.object = p.object →
          p'.Represents ⟨S.problem, some T.readColumn, storedObjective S.problem T⟩ →
          Ends sure p S F (loopResult S.problem (some (.optimal, T)))
            (some (.optimal, start m.object)) (p'.blocks + (m.blocks + F)) :=
        fun p' hobject hp' => .optimal _ _ T p' m rfl hobject hp' h
      rw [hrows, hcols]
      refine runs_bind (runs_solutionArray rfl (fun hsure => ?_) fun b f => ?_)
      · rw [if_pos rfl]
        exact runs_bind (runs_matrixFreeMethod (add_left_comm _ _ _) (runs_pure (.short hsure)))
      · rw [if_neg (start_ne_none _)]
        exact runs_extract hS h hrows hcols b f p.objectiveValue rfl hdone
    · obtain ⟨hc, -⟩ := scanMin_eq_some hcolumn
      dsimp only
      refine runs_bind (runs_findPivotRow h hm (Nat.le_of_lt hc) ?_)
      rcases hrow : leavingRow T c with _ | r
      · exact runs_pure (.unbounded T m rfl h)
      obtain ⟨hr, -⟩ := scanMin_eq_some hrow
      dsimp only
      refine runs_bind (h.runs_entry hm (Nat.le_of_lt hr) (Nat.le_of_lt hc) ?_)
      by_cases htiny : |T.data r c| < 1 / 1000000000000
      · rw [if_pos htiny, if_pos htiny]
        exact runs_bind (runs_matrixFreeMethod (add_left_comm _ _ _) (runs_pure (.infeasible rfl)))
      · rw [if_neg htiny, if_neg htiny]
        refine runs_bind (runs_pivotTableau h (add_left_comm _ _ _) hr (Nat.le_of_lt hc)
          fun e he => ?_)
        have hnext := ih he hrows hcols (add_left_comm _ _ _)
        rw [← hrows, ← hcols] at hnext
        exact hnext

/-- **The solver in memory and the solver on paper** end in the same way, whatever the problem is
and whatever allocations fail, on any frame. What fails is freed again, except what is handed out.
-/
theorem runs_simplexSolver (hS : p.Represents S) {fuel : ℕ} (hs : s = p.blocks + F) :
    Runs sure (simplexSolver fuel (start p.object)) s
      (Ends sure p S F (Solver.simplexSolver fuel S.problem)) := by
  subst hs
  have hp : p.blocks ≤ p.blocks + F := Multiset.le_add_right _ _
  refine runs_bind (ProblemRep.runs_impl hp ?_)
  refine runs_bind (MatrixRep.runs_matrixImpl (ProblemRep.constraints_le.trans hp) ?_)
  refine runs_bind (VectorRep.runs_vectorImpl (ProblemRep.objective_le.trans hp) ?_)
  refine runs_bind (VectorRep.runs_vectorImpl (ProblemRep.bounds_le.trans hp) ?_)
  dsimp only
  have hvars := hS.variableCount
  have hcount := hS.constraintCount
  have hpos := p.objective.size_pos
  have hrows : p.fields.constraintCount = p.constraintCount := rfl
  have hcols : p.constraints.fields.cols = p.objective.size := congrArg Nat.cast p.cols_eq
  rw [hrows, hcols]
  by_cases hempty : p.constraintCount = 0
  · rw [if_pos (by omega), Solver.simplexSolver, if_pos (by omega)]
    exact runs_pure (.infeasible rfl)
  rw [if_neg (by omega), simplexSolver_eq (by omega)]
  refine runs_bind (runs_createMatrix (fun hsure => ?_) fun m hr hc hzero => ?_)
  · exact runs_bind (runs_pure (runs_pure (.short (hsure (by omega) (by omega)))))
  refine runs_bind (MatrixRep.runs_matrixImpl (Multiset.le_add_right _ _) ?_)
  dsimp only
  rw [Int.toNat_natCast, Int.toNat_natCast]
  refine runs_bind (runs_fillTableau hS hp (by omega) (by omega) hzero rfl fun e he => ?_)
  exact runs_simplexLoop (m := m.put e) hS he hcount hvars (add_left_comm _ _ _)

end

/-! ## Solvers

`solver_dispatch` calls what `solve_fn` points to. -/

/-- The blocks of a solver. -/
def solverBlocks (object impl : ℕ) (type : ℤ) : Multiset (ℕ × List (Cell ℚ)) :=
  pointsTo object [.pointer (start impl)] + pointsTo impl [.int type, .int (type + 1)]

theorem runs_createSolver {type : ℤ} (htype : 0 ≤ type ∧ type ≤ 3)
    {Q : Option Pointer → Multiset (ℕ × List (Cell ℚ)) → Prop} (hnone : ¬ sure → Q none s)
    (hsome : ∀ object impl, Q (start object) (solverBlocks object impl type + s)) :
    Runs sure (createSolver type) s Q := by
  refine runs_bind (runs_calloc (fun h => runs_pure (hnone h)) fun object => ?_)
  rw [if_neg (start_ne_none _)]
  refine runs_bind (runs_calloc (fun h => ?_) fun impl => ?_)
  · exact runs_bind (runs_freeStart rfl (runs_pure (hnone h)))
  rw [if_neg (start_ne_none _)]
  refine runs_bind (runs_setField rfl (by simp) ?_)
  rw [if_pos htype]
  refine runs_bind (runs_setField rfl (by simp) ?_)
  refine runs_bind (runs_setField (add_left_comm _ _ _) (by simp) (runs_pure ?_))
  rw [← add_assoc]
  exact hsome object impl

theorem runs_solverDispatch {object impl : ℕ} {type : ℤ} (htype : 0 ≤ type) {fns : SolveFns}
    (hs : solverBlocks object impl type ≤ s) {problem : Option Pointer}
    {Q : Option (Status × Option Pointer) → Multiset (ℕ × List (Cell ℚ)) → Prop}
    (hQ : Runs sure (fns (type + 1) problem) s Q) :
    Runs sure (solverDispatch fns (start object) problem) s Q := by
  refine runs_bind (runs_pointerAt ((Multiset.le_add_right _ _).trans hs) rfl ?_)
  rw [if_neg (start_ne_none _)]
  refine runs_bind (runs_intAt ((Multiset.le_add_left _ _).trans hs) rfl ?_)
  rw [if_neg (by omega)]
  exact hQ

theorem runs_solverFreeMethod {object impl : ℕ} {type : ℤ}
    (hs : s = solverBlocks object impl type + F)
    {Q : Unit → Multiset (ℕ × List (Cell ℚ)) → Prop} (hQ : Q () F) :
    Runs sure (solverFreeMethod (start object)) s Q := by
  subst hs
  rw [solverFreeMethod, if_neg (start_ne_none _), solverBlocks, add_assoc]
  refine runs_bind (runs_pointerAt (Multiset.le_add_right _ _) rfl ?_)
  refine runs_bind (runs_freeStart (add_left_comm _ _ _) ?_)
  exact runs_bind (runs_setField rfl (by simp) (runs_freeStart rfl hQ))

end ProblemStorage

end Solver

end OvaLib
