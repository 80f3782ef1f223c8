import OvaLib.Foundation.Determinant
import OvaLib.Matrix.Strassen

/-!
# The determinant

`matrix_determinant_method`, over any field in place of `double`. It eliminates in a copy of the
matrix, column by column. The rows of a finished column are not looked at any more, so what counts
is the square that is left: its determinant, times what has been collected, is the determinant of
the matrix.

## The contract

The method returns the determinant and sets `*error` to 0, or returns 0 and sets it to 1 when the
matrix is not square or the copy is not to be had. The matrix itself is not changed.

## The pivot

When the cell on the diagonal is zero, the first row below whose cell in that column is not is
swapped for this one, and the sign changes. When there is no such row, the determinant is zero and
the loop ends. The comparison with zero is exact in the source. Over a field it is what it should
be; with `double` a pivot may be tiny, and what that does to the result is not a matter of this
module.

## How the loop is followed

The invariant is a product: what has been collected, times the determinant of the trailing square.
Clearing a column leaves the determinant of that square, and an expansion along the cleared column
makes it the pivot times the next square. Both are facts of the library, of matrices as such.

## Main results

* `swapRows_apply`, `subtractRow_apply` — the loops over a row
* `eliminateBelow_apply` — the loop over the rows below a pivot
* `determinantLoop_eq` — the outer loop, from any column on
* `matrixDeterminantMethod_eq_det` — the method returns the sum over the permutations
-/

namespace OvaLib

namespace Matrix

open Foundation (loop loop_table det_swap_rows det_eq_pivot_mul)

variable {K : Type*} [Field K]

/-! ## The model -/

/-- The loop that swaps the first `len` cells of two rows. -/
def swapRows (len i k : ℕ) (data : Block K) : Block K :=
  loop len (fun j data =>
    let swap := data i j
    let data := data.set i j (data k j)
    data.set k j swap) data

/-- The loop that subtracts a multiple of row `i` from row `k`, in the columns from `start` up to
`stop`. -/
def subtractRow (start stop i k : ℕ) (factor : K) (data : Block K) : Block K :=
  loop (stop - start) (fun d data =>
    data.set k (start + d) (data k (start + d) - data i (start + d) * factor)) data

variable [DecidableEq K]

/-- The search for a row below `i` whose cell in column `i` is not zero. -/
def findRow (n i : ℕ) (data : Block K) : Option ℕ :=
  (List.range' (i + 1) (n - (i + 1))).find? fun k => data k i ≠ 0

/-- The rows with a pivot in column `i`, and whether two of them were swapped; `none` if there is no
pivot to be had. The rows have `len` cells. -/
def providePivot (n len i : ℕ) (data : Block K) : Option (Block K × Bool) :=
  if data i i = 0 then (findRow n i data).map fun k => (swapRows len i k data, true)
  else some (data, false)

omit [DecidableEq K] in
/-- The loop of `matrix_determinant_method` that clears column `i` below the pivot. -/
def eliminateBelow (n i : ℕ) (tmp : Block K) : Block K :=
  loop (n - (i + 1)) (fun d tmp =>
    subtractRow i n i (i + 1 + d) (tmp (i + 1 + d) i / tmp i i) tmp) tmp

/-- The outer loop of `matrix_determinant_method`, for `m` columns from `i` on. -/
def determinantLoop (n : ℕ) : ℕ → ℕ → Block K → K → K
  | 0, _, _, det => det
  | m + 1, i, tmp, det =>
    match providePivot n n i tmp with
    | none => 0
    | some (tmp, swapped) =>
      let det := if swapped then det * -1 else det
      let tmp := eliminateBelow n i tmp
      determinantLoop n m (i + 1) tmp (det * tmp i i)

/-- What `matrix_determinant_method` returns, what it puts into `*error`, and the matrix it leaves
behind. -/
structure Determinant (K : Type*) where
  value : K
  error : ℤ
  /-- The matrix the method was called on. -/
  self : MatrixImpl K

/-- `matrix_determinant_method`. -/
def matrixDeterminantMethod (self : MatrixImpl K) (al : Allocator) : Determinant K × Allocator :=
  if self.rows ≠ self.cols then (⟨0, 1, self⟩, al)
  else
    let n := self.rows
    match createMatrix (R := K) n n al with
    | (none, al) => (⟨0, 1, self⟩, al)
    | (some temp, al) => (⟨determinantLoop n n 0 (copyRows temp.data self.data n n) 1, 0, self⟩, al)

/-! ## The loops over a row -/

section Rows

omit [DecidableEq K]

variable {data : Block K} {n len i k x y : ℕ}

omit [Field K] in
theorem swapRows_apply (hik : i ≠ k) :
    swapRows len i k data x y = if y < len then data (Equiv.swap i k x) y else data x y := by
  refine loop_table (fun m x y => if y < m then data (Equiv.swap i k x) y else data x y)
    (fun x y => if_neg (Nat.not_lt_zero y)) (fun j _ x y => ?_) x y
  simp only [Block.set, Nat.lt_irrefl, if_false, Equiv.swap_apply_def]
  grind

theorem subtractRow_apply {start stop : ℕ} (factor : K) :
    subtractRow start stop i k factor data x y =
      if x = k ∧ start ≤ y ∧ y < stop then data x y - data i y * factor else data x y := by
  refine (loop_table (fun m x y =>
      if x = k ∧ start ≤ y ∧ y < start + m then data x y - data i y * factor else data x y)
    (fun x y => if_neg (by omega)) (fun d _ x y => ?_) x y).trans (if_congr (by omega) rfl rfl)
  simp only [Block.set]
  grind

/-- **Below a pivot**, every row loses its multiple of the pivot row. -/
theorem eliminateBelow_apply {tmp : Block K} :
    eliminateBelow n i tmp x y = if i < x ∧ x < n ∧ i ≤ y ∧ y < n then
      tmp x y - tmp i y * (tmp x i / tmp i i) else tmp x y := by
  refine (loop_table (fun m x y =>
      if i < x ∧ x < i + 1 + m ∧ i ≤ y ∧ y < n then tmp x y - tmp i y * (tmp x i / tmp i i)
      else tmp x y)
    (fun x y => if_neg (by omega)) (fun d _ x y => ?_) x y).trans (if_congr (by omega) rfl rfl)
  rw [subtractRow_apply]
  grind

end Rows

/-! ## The pivot

Whether there is one, and what a swap does to the rows. -/

section Pivot

variable {data tmp : Block K} {n len i k : ℕ} {swapped : Bool}

theorem findRow_some (h : findRow n i data = some k) : i < k ∧ k < n ∧ data k i ≠ 0 := by
  have hmem := List.mem_range'_1.mp (List.mem_of_find?_eq_some h)
  exact ⟨by omega, by omega, by simpa using List.find?_some h⟩

theorem findRow_none (h : findRow n i data = none) (hik : i < k) (hkn : k < n) :
    data k i = 0 := by
  have hmem : k ∈ List.range' (i + 1) (n - (i + 1)) := List.mem_range'_1.mpr (by omega)
  simpa using List.find?_eq_none.mp h k hmem

/-- Without a pivot, the column is zero from row `i` on. -/
theorem providePivot_none (h : providePivot n len i data = none) (hik : i ≤ k) (hkn : k < n) :
    data k i = 0 := by
  rw [providePivot] at h
  split at h
  · next hzero =>
    rcases hik.eq_or_lt with rfl | hlt
    · exact hzero
    · exact findRow_none (Option.map_eq_none_iff.mp h) hlt hkn
  · exact absurd h (by simp)

/-- **A pivot is provided**, by a swap with a row below or without one. -/
theorem providePivot_some (hlen : i < len) (h : providePivot n len i data = some (tmp, swapped)) :
    tmp i i ≠ 0 ∧ (swapped = false ∧ tmp = data ∨
      swapped = true ∧ ∃ k, i < k ∧ k < n ∧ tmp = swapRows len i k data) := by
  rw [providePivot] at h
  split at h
  · obtain ⟨k, hfind, hpair⟩ := Option.map_eq_some_iff.mp h
    obtain ⟨rfl, rfl⟩ := Prod.mk.inj hpair
    obtain ⟨hik, hkn, hne⟩ := findRow_some hfind
    refine ⟨?_, .inr ⟨rfl, k, hik, hkn, rfl⟩⟩
    rwa [swapRows_apply (by omega), if_pos hlen, Equiv.swap_apply_left]
  · next hne =>
    obtain ⟨rfl, rfl⟩ := Prod.mk.inj (Option.some.inj h)
    exact ⟨hne, .inl ⟨rfl, rfl⟩⟩

end Pivot

/-! ## The outer loop

By induction on the number of columns that are left. -/

/-- The square of `m` rows and columns that starts at cell `(i, i)`. -/
def trailing (data : Block K) (i m : ℕ) : Matrix (Fin m) (Fin m) K :=
  .of fun a b => data (i + a) (i + b)

section Outer

variable {data tmp : Block K} {n i m : ℕ} {swapped : Bool}

/-- Providing a pivot changes the sign of the determinant as often as `det`. -/
theorem det_trailing_providePivot (hm : i + (m + 1) = n)
    (h : providePivot n n i data = some (tmp, swapped)) :
    (if swapped then -1 else 1) * (trailing tmp i (m + 1)).det =
      (trailing data i (m + 1)).det := by
  obtain ⟨-, ⟨rfl, rfl⟩ | ⟨rfl, k, hik, hkn, rfl⟩⟩ := providePivot_some (by omega) h
  · exact one_mul _
  · obtain ⟨d, rfl⟩ : ∃ d, k = i + d := ⟨k - i, by omega⟩
    have hne : (0 : Fin (m + 1)) ≠ ⟨d, by omega⟩ := by
      intro hzero
      have hval : 0 = d := congrArg Fin.val hzero
      omega
    have hswap : trailing (swapRows n i (i + d) data) i (m + 1) =
        .of fun a b => trailing data i (m + 1) (Equiv.swap 0 ⟨d, by omega⟩ a) b := by
      funext a b
      have hrow : Equiv.swap i (i + d) (i + a) =
          i + (Equiv.swap (0 : Fin (m + 1)) ⟨d, by omega⟩ a : Fin (m + 1)) := by
        simp only [Equiv.swap_apply_def, Fin.ext_iff, Fin.val_zero]
        split_ifs <;> simp_all
      simp only [trailing, Matrix.of_apply]
      rw [swapRows_apply (by omega), if_pos (by omega), hrow]
    rw [hswap, det_swap_rows _ hne, if_pos rfl, neg_one_mul, neg_neg]

omit [DecidableEq K] in
/-- **The square after a column** is cleared: the pivot times the square that is left. -/
theorem det_trailing_eliminateBelow (hm : i + (m + 1) = n) (hpivot : tmp i i ≠ 0) :
    tmp i i * (trailing (eliminateBelow n i tmp) (i + 1) m).det =
      (trailing tmp i (m + 1)).det := by
  rw [det_eq_pivot_mul (M := trailing tmp i (m + 1)) hpivot]
  refine congrArg (fun M => tmp i i * Matrix.det M) ?_
  funext a b
  simp only [trailing, Matrix.of_apply, Fin.val_zero, Fin.val_succ, Nat.add_zero]
  rw [eliminateBelow_apply, if_pos (by omega), Nat.add_right_comm i 1 a, Nat.add_right_comm i 1 b]
  rfl

/-- **The outer loop** multiplies `det` by the determinant of the square that is left. -/
theorem determinantLoop_eq (hm : i + m = n) (det : K) :
    determinantLoop n m i data det = det * (trailing data i m).det := by
  induction m generalizing i data det with
  | zero => rw [determinantLoop, Matrix.det_isEmpty, mul_one]
  | succ m ih =>
    rw [determinantLoop]
    cases h : providePivot n n i data with
    | none =>
      have hzero : (trailing data i (m + 1)).det = 0 :=
        Matrix.det_eq_zero_of_column_eq_zero 0 fun a =>
          providePivot_none h (Nat.le_add_right i a) (by omega)
      rw [hzero, mul_zero]
    | some r =>
      obtain ⟨tmp, swapped⟩ := r
      have hpivot := (providePivot_some (by omega) h).1
      have hcorner : eliminateBelow n i tmp i i = tmp i i := by
        rw [eliminateBelow_apply, if_neg (by omega)]
      dsimp only
      rw [ih (by omega), hcorner, mul_assoc, det_trailing_eliminateBelow hm hpivot,
        ← det_trailing_providePivot hm h]
      cases swapped
      · rw [if_neg Bool.false_ne_true, if_neg Bool.false_ne_true, one_mul]
      · rw [if_pos rfl, if_pos rfl, mul_assoc]

end Outer

/-- What `matrix_determinant_method` does with a square matrix. -/
theorem matrixDeterminantMethod_spec {n : ℕ} (hn : 1 ≤ n) {self : MatrixImpl K}
    (hrows : self.rows = n) (hcols : self.cols = n) :
    matrixDeterminantMethod self .always =
      (⟨(Matrix.of fun a b : Fin n => self.data a b).det, 0, self⟩, .always) := by
  subst hrows
  have hcopy : trailing (copyRows zeroBlock self.data self.rows self.rows) 0 self.rows =
      .of fun a b : Fin self.rows => self.data a b := by
    funext a b
    rw [trailing, copyRows_eq, Matrix.of_apply, Matrix.of_apply, Nat.zero_add, Nat.zero_add]
    exact if_pos ⟨a.2, b.2⟩
  rw [matrixDeterminantMethod, if_neg (by omega)]
  dsimp only
  rw [createMatrix_always hn hn]
  dsimp only
  rw [determinantLoop_eq (Nat.zero_add _), hcopy, one_mul]

/-- **`matrix_determinant_method` returns the determinant**: the sum over the permutations, with
`*error` at 0 and the matrix as it was, for every square matrix. -/
theorem matrixDeterminantMethod_eq_det {n : ℕ} (hn : 1 ≤ n) {self : MatrixImpl K}
    (hrows : self.rows = n) (hcols : self.cols = n) :
    matrixDeterminantMethod self .always =
      (⟨∑ σ : Equiv.Perm (Fin n), Equiv.Perm.sign σ • ∏ i, self.data (σ i) i, 0, self⟩,
        .always) := by
  rw [matrixDeterminantMethod_spec hn hrows hcols, Matrix.det_apply]
  rfl

/-- The matrix that exchanges two coordinates has no pivot in its first row. -/
theorem matrixDeterminantMethod_eq_det_exchange :
    (matrixDeterminantMethod (⟨fun i j => if i = j then 0 else 1, 2, 2⟩ : MatrixImpl ℚ)
      .always).1.value = -1 := by
  rw [matrixDeterminantMethod_eq_det (n := 2) (by decide) rfl rfl]
  decide +kernel

end Matrix

end OvaLib
