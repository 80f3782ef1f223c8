import Mathlib.LinearAlgebra.Matrix.NonsingularInverse
import Mathlib.LinearAlgebra.Matrix.ToLinearEquiv
import OvaLib.Foundation.Elimination
import OvaLib.Matrix.Determinant

/-!
# The inverse

`matrix_inverse_method`, over any field in place of `double`. Next to the matrix stands the unit
matrix, and every step on the rows changes both halves. So each row of the left half is always the
row of the right half times the matrix, and a vector that the left half takes to zero is one that
the matrix takes to zero.

## The contract

The method returns a new matrix, or `NULL` when the matrix is not square, has no inverse, or memory
runs out. With allocations succeeding, `matrixInverseMethod_iff` says that a square matrix gets a
result exactly when its determinant is not zero, by the method that computes it, and that the result
is the inverse on both sides. The two methods eliminate differently, and the statement ties them to
each other.

## How the loop is followed

A turn makes one more column that of the unit matrix. To know that the right half is the inverse at
the end, it is enough that the rows of the block, read as equations, have the same solutions
throughout; `Reduced` states that for every right-hand side, so that each column of the right half
can be read off as a solution. If no pivot is found, the column depends on those before it, and the
same equations give a vector that the matrix takes to zero.

## Main results

* `pivotStep_apply` — a turn of the outer loop is a step of Gauss–Jordan elimination
* `inverseLoop_spec` — the outer loop ends with the unit matrix on the left, or the matrix is
  singular
* `matrixInverseMethod_iff` — when there is an inverse, and what it is
-/

namespace OvaLib

namespace Matrix

open Foundation (loop loop_table loop_none loop_once eliminate eliminate_apply_pivot
  eliminate_apply_of_zero solves_eliminate_iff)

variable {K : Type*} [Field K]

/-! ## The model -/

/-- The two loops that put the matrix and the unit matrix side by side. -/
def augment (n : ℕ) (self aug : Block K) : Block K :=
  loop n (fun i => loop n fun j aug =>
    let aug := aug.set i j (self i j)
    aug.set i (j + n) (if i = j then 1 else 0)) aug

/-- The loop that divides a row by its pivot. -/
def divideRow (len i : ℕ) (pivot : K) (aug : Block K) : Block K :=
  loop len (fun j aug => aug.set i j (aug i j / pivot)) aug

/-- The loop of `matrix_inverse_method` that clears column `i` in the other rows. -/
def eliminateOthers (n i : ℕ) (aug : Block K) : Block K :=
  loop n (fun k aug => if k ≠ i then subtractRow 0 (2 * n) i k (aug k i) aug else aug) aug

/-- A turn of the outer loop, once there is a pivot. -/
def pivotStep (n i : ℕ) (aug : Block K) : Block K :=
  eliminateOthers n i (divideRow (2 * n) i (aug i i) aug)

variable [DecidableEq K]

/-- The outer loop of `matrix_inverse_method`, for `m` columns from `i` on. -/
def inverseLoop (n : ℕ) : ℕ → ℕ → Block K → Option (Block K)
  | 0, _, aug => some aug
  | m + 1, i, aug =>
    (providePivot n (2 * n) i aug).bind fun (aug, _) => inverseLoop n m (i + 1) (pivotStep n i aug)

omit [DecidableEq K] in
/-- The loops that take the right half. -/
def rightHalf (n : ℕ) (inverse aug : Block K) : Block K :=
  loop n (fun i => loop n fun j inverse => inverse.set i j (aug i (j + n))) inverse

/-- `matrix_inverse_method`. -/
def matrixInverseMethod (self : MatrixImpl K) (al : Allocator) :
    Option (MatrixImpl K) × Allocator :=
  if self.rows ≠ self.cols then (none, al)
  else
    let n := self.rows
    let (inverse, al) := createMatrix (R := K) n n al
    let (augmented, al) := createMatrix (R := K) n (n * 2) al
    match inverse, augmented with
    | some inverse, some augmented =>
      ((inverseLoop n n 0 (augment n self.data augmented.data)).map fun aug =>
        { inverse with data := rightHalf n inverse.data aug }, al)
    | _, _ => (none, al)

/-! ## The loops -/

section Loops

omit [DecidableEq K]

variable {aug self inverse : Block K} {n len i x y : ℕ}

theorem augment_left (hx : x < n) (hy : y < n) : augment n self aug x y = self x y := by
  refine loop_once hx (G := fun _ => self x y) (fun r => ?_) (fun i _ hi r => ?_) aug
  · refine loop_once hy (G := fun _ => self x y) (fun r => ?_) (fun j _ hj r => ?_) r
    · exact (set_of_ne (.inr (by omega))).trans set_self
    · exact (set_of_ne (.inr (by omega))).trans (set_of_ne (.inr hj.symm))
  · exact loop_none (fun j _ r => (set_of_ne (.inl hi.symm)).trans (set_of_ne (.inl hi.symm))) r

theorem augment_right (hx : x < n) (hy : y < n) :
    augment n self aug x (y + n) = if x = y then 1 else 0 := by
  refine loop_once hx (G := fun _ => if x = y then 1 else 0) (fun r => ?_) (fun i _ hi r => ?_) aug
  · refine loop_once hy (G := fun _ => if x = y then 1 else 0) (fun r => set_self)
      (fun j _ hj r => ?_) r
    exact (set_of_ne (.inr (by omega))).trans (set_of_ne (.inr (by omega)))
  · exact loop_none (fun j _ r => (set_of_ne (.inl hi.symm)).trans (set_of_ne (.inl hi.symm))) r

theorem divideRow_apply {pivot : K} : divideRow len i pivot aug x y =
    if x = i ∧ y < len then aug x y / pivot else aug x y := by
  refine loop_table (fun m x y => if x = i ∧ y < m then aug x y / pivot else aug x y)
    (fun x y => if_neg (by omega)) (fun j _ x y => ?_) x y
  simp only [Block.set]
  grind

theorem eliminateOthers_apply : eliminateOthers n i aug x y =
    if x < n ∧ x ≠ i ∧ y < 2 * n then aug x y - aug i y * aug x i else aug x y := by
  refine loop_table (fun m x y =>
      if x < m ∧ x ≠ i ∧ y < 2 * n then aug x y - aug i y * aug x i else aug x y)
    (fun x y => if_neg (by omega)) (fun k _ x y => ?_) x y
  split
  · rw [subtractRow_apply]
    grind
  · grind

/-- **A turn of the outer loop** is a step of Gauss–Jordan elimination. -/
theorem pivotStep_apply (hx : x < n) (hy : y < 2 * n) :
    pivotStep n i aug x y = eliminate aug i i x y := by
  rw [pivotStep, eliminateOthers_apply, divideRow_apply, divideRow_apply, divideRow_apply,
    eliminate]
  by_cases hxi : x = i
  · rw [if_neg (by omega), if_pos ⟨hxi, hy⟩, if_pos hxi, hxi]
  · rw [if_pos ⟨hx, hxi, hy⟩, if_neg (by omega), if_pos ⟨rfl, hy⟩, if_neg (by omega), if_neg hxi]

end Loops

/-! ## What the outer loop keeps

The equations, and not the row operations that have been made, are what is kept. -/

section Invariant

omit [DecidableEq K]

variable {n i e : ℕ} {s : Finset ℕ} {aug aug₀ : Block K} {z : ℕ → K}

/-- The rows of a block, as equations with the right-hand sides in column `e`, hold at a point. -/
def Solves (n : ℕ) (s : Finset ℕ) (e : ℕ) (aug : Block K) (z : ℕ → K) : Prop :=
  ∀ k, k < n → Foundation.residual s e aug z k = 0

theorem solves_congr {aug' : Block K} (h : ∀ x < n, ∀ y, y ∈ s ∨ y = e → aug' x y = aug x y) :
    Solves n s e aug' z ↔ Solves n s e aug z := by
  refine forall_congr' fun k => forall_congr' fun hk => ?_
  rw [Foundation.residual, Foundation.residual, h k hk e (.inr rfl),
    Finset.sum_congr rfl fun j hj => by rw [h k hk j (.inl hj)]]

/-- A swap of two rows does not change what holds. -/
theorem solves_swapRows {len k : ℕ} (hi : i < n) (hk : k < n) (hik : i ≠ k)
    (hs : ∀ j ∈ s, j < len) (he : e < len) :
    Solves n s e (swapRows len i k aug) z ↔ Solves n s e aug z := by
  have hrow : ∀ x, Foundation.residual s e (swapRows len i k aug) z x =
      Foundation.residual s e aug z (Equiv.swap i k x) := by
    intro x
    rw [Foundation.residual, Foundation.residual, swapRows_apply hik, if_pos he,
      Finset.sum_congr rfl fun j hj => by rw [swapRows_apply hik, if_pos (hs j hj)]]
  have hlt : ∀ x, x < n → Equiv.swap i k x < n := by
    intro x hx
    rw [Equiv.swap_apply_def]
    split_ifs <;> assumption
  constructor
  · intro h x hx
    have hzero := h _ (hlt x hx)
    rwa [hrow, Equiv.swap_apply_self] at hzero
  · intro h x hx
    rw [hrow]
    exact h _ (hlt x hx)

/-- Nor does a turn of the outer loop. -/
theorem solves_pivotStep (hi : i < n) (hpivot : aug i i ≠ 0) (hs : ∀ j ∈ s, j < 2 * n)
    (he : e < 2 * n) : Solves n s e (pivotStep n i aug) z ↔ Solves n s e aug z := by
  refine Iff.trans (solves_congr fun x hx y hy => ?_)
    (solves_eliminate_iff (P := fun k => k < n) hi hpivot)
  rcases hy with hy | rfl
  exacts [pivotStep_apply hx (hs y hy), pivotStep_apply hx he]

/-- **What the outer loop keeps**: the columns before `i` are those of the unit matrix, and the rows
hold where they did at first. -/
structure Reduced (n i : ℕ) (aug₀ aug : Block K) : Prop where
  /-- The finished columns. -/
  unit : ∀ j < i, ∀ k < n, aug k j = if k = j then 1 else 0
  /-- The rows have the solutions they had at the beginning. -/
  solves_iff : ∀ {s e z}, (∀ j ∈ s, j < 2 * n) → e < 2 * n →
    (Solves n s e aug z ↔ Solves n s e aug₀ z)

variable [DecidableEq K]

theorem Reduced.providePivot {aug' : Block K} {swapped : Bool} (h : Reduced n i aug₀ aug)
    (hi : i < n) (hpivot : providePivot n (2 * n) i aug = some (aug', swapped)) :
    Reduced n i aug₀ aug' := by
  obtain ⟨-, ⟨-, rfl⟩ | ⟨-, k, hik, hkn, rfl⟩⟩ := providePivot_some (by omega) hpivot
  · exact h
  · refine ⟨fun j hj x hx => ?_, fun hs he => ?_⟩
    · -- the rows that change places are both zero in a finished column
      rw [swapRows_apply (by omega), if_pos (by omega), Equiv.swap_apply_def]
      split_ifs with hxi hxk
      all_goals grind [h.unit j hj]
    · exact (solves_swapRows hi hkn (by omega) hs he).trans (h.solves_iff hs he)

omit [DecidableEq K] in
theorem Reduced.pivotStep (h : Reduced n i aug₀ aug) (hi : i < n) (hpivot : aug i i ≠ 0) :
    Reduced n (i + 1) aug₀ (pivotStep n i aug) where
  unit j hj k hk := by
    rw [pivotStep_apply hk (by omega)]
    rcases Nat.lt_succ_iff_lt_or_eq.mp hj with hlt | rfl
    · have hzero : aug i j = 0 := by rw [h.unit j hlt i hi, if_neg (by omega)]
      rw [eliminate_apply_of_zero hzero, h.unit j hlt k hk]
    · exact eliminate_apply_pivot hpivot k
  solves_iff hs he := (solves_pivotStep hi hpivot hs he).trans (h.solves_iff hs he)

/-- Without a pivot, column `i` is a combination of the columns before it. -/
theorem Reduced.dependent (h : Reduced n i aug₀ aug) (hi : i < n)
    (hnone : Matrix.providePivot n (2 * n) i aug = none) :
    ∃ z, Solves n (Finset.range i) i aug₀ z := by
  refine ⟨fun j => aug j i, (h.solves_iff (fun j hj => ?_) (by omega)).mp fun k hk => ?_⟩
  · have hlt := Finset.mem_range.mp hj
    omega
  · have hsum : ∑ j ∈ Finset.range i, aug k j * aug j i =
        ∑ j ∈ Finset.range i, if k = j then aug j i else 0 := by
      refine Finset.sum_congr rfl fun j hj => ?_
      rw [h.unit j (Finset.mem_range.mp hj) k hk, ite_mul, one_mul, zero_mul]
    rw [Foundation.residual, hsum, Finset.sum_ite_eq]
    split
    · exact sub_self _
    · next hout =>
      rw [providePivot_none hnone (not_lt.mp fun hlt => hout (Finset.mem_range.mpr hlt)) hk,
        sub_zero]

/-- **The outer loop** ends with the unit matrix on the left, or at a column that depends on those
before it. -/
theorem inverseLoop_spec {m : ℕ} (h : Reduced n i aug₀ aug) (hm : i + m = n) :
    (∃ aug', inverseLoop n m i aug = some aug' ∧ Reduced n n aug₀ aug') ∨
      inverseLoop n m i aug = none ∧ ∃ j < n, ∃ z, Solves n (Finset.range j) j aug₀ z := by
  induction m generalizing i aug with
  | zero =>
    obtain rfl : i = n := hm
    exact .inl ⟨aug, rfl, h⟩
  | succ m ih =>
    rw [inverseLoop]
    cases hpivot : Matrix.providePivot n (2 * n) i aug with
    | none => exact .inr ⟨rfl, i, by omega, h.dependent (by omega) hpivot⟩
    | some r =>
      obtain ⟨aug', swapped⟩ := r
      exact ih ((h.providePivot (by omega) hpivot).pivotStep (by omega)
        (providePivot_some (by omega) hpivot).1) (by omega)

end Invariant

/-! ## The inverse -/

section Result

variable {n : ℕ} {self : MatrixImpl K}

/-- The matrix with `n` rows and columns. -/
def toMatrix (n : ℕ) (self : MatrixImpl K) : Matrix (Fin n) (Fin n) K :=
  .of fun a b => self.data a b

omit [DecidableEq K] in
/-- A column that is a combination of the columns before it. -/
theorem det_toMatrix_eq_zero {j : ℕ} (hj : j < n) {z : ℕ → K}
    (h : ∀ k < n, self.data k j = ∑ m ∈ Finset.range j, self.data k m * z m) :
    (toMatrix n self).det = 0 := by
  let v : ℕ → K := fun m => if m = j then 1 else if m < j then -z m else 0
  refine Matrix.exists_mulVec_eq_zero_iff.mp ⟨fun m => v m, fun hv => ?_, ?_⟩
  · have hone : v j = 0 := congrFun hv ⟨j, hj⟩
    exact one_ne_zero ((if_pos rfl).symm.trans hone)
  · funext k
    show ∑ m : Fin n, self.data k m * v m = 0
    have hbefore : ∀ m ∈ Finset.range j, self.data k m * v m = -(self.data k m * z m) := by
      intro m hm
      have hmj := Finset.mem_range.mp hm
      rw [show v m = -z m from (if_neg hmj.ne).trans (if_pos hmj), mul_neg]
    have hafter : ∀ m ∈ Finset.range n, m ∉ Finset.range (j + 1) → self.data k m * v m = 0 := by
      intro m _ hm
      have hjm : j < m := by
        rw [Finset.mem_range] at hm
        omega
      rw [show v m = 0 from (if_neg hjm.ne').trans (if_neg (not_lt.mpr hjm.le)), mul_zero]
    rw [← Finset.sum_range fun m => self.data k m * v m,
      ← Finset.sum_subset (Finset.range_mono hj) hafter, Finset.sum_range_succ,
      Finset.sum_congr rfl hbefore, Finset.sum_neg_distrib, show v j = 1 from if_pos rfl, mul_one,
      h k k.2, neg_add_cancel]

omit [DecidableEq K] in
/-- With the unit matrix on the left, the right half is the inverse. -/
theorem Reduced.mul_eq_one {aug aug₀ : Block K} {inverse : MatrixImpl K}
    (h : Reduced n n (augment n self.data aug₀) aug)
    (hinverse : ∀ k < n, ∀ m < n, inverse.data k m = aug k (m + n)) :
    toMatrix n inverse * toMatrix n self = 1 := by
  funext a b
  let s : Finset ℕ := (Finset.range n).map (addRightEmbedding n)
  have hs : ∀ j ∈ s, j < 2 * n := by
    intro j hj
    obtain ⟨m, hm, rfl⟩ := Finset.mem_map.mp hj
    have hlt := Finset.mem_range.mp hm
    rw [addRightEmbedding_apply]
    omega
  have hfirst : Solves n s b (augment n self.data aug₀) fun m => self.data (m - n) b := by
    intro k hk
    have hsum : ∀ m ∈ Finset.range n, augment n self.data aug₀ k (m + n) * self.data m b =
        if k = m then self.data m b else 0 := by
      intro m hm
      rw [augment_right hk (Finset.mem_range.mp hm), ite_mul, one_mul, zero_mul]
    rw [Foundation.residual, augment_left hk b.2, Finset.sum_map]
    simp only [addRightEmbedding_apply, Nat.add_sub_cancel]
    rw [Finset.sum_congr rfl hsum, Finset.sum_ite_eq, if_pos (Finset.mem_range.mpr hk), sub_self]
  have hlast := (h.solves_iff hs (by omega)).mpr hfirst a a.2
  rw [Foundation.residual, h.unit b b.2 a a.2, Finset.sum_map, sub_eq_zero] at hlast
  simp only [addRightEmbedding_apply, Nat.add_sub_cancel] at hlast
  rw [Matrix.mul_apply, Matrix.one_apply]
  simp only [toMatrix, Matrix.of_apply, Fin.ext_iff]
  rw [hlast, ← Finset.sum_range fun m => inverse.data a m * self.data m b]
  exact Finset.sum_congr rfl fun m hm => by rw [hinverse a a.2 m (Finset.mem_range.mp hm)]

/-- What `matrix_inverse_method` returns for a square matrix. -/
theorem matrixInverseMethod_spec (hn : 1 ≤ n) (hrows : self.rows = n) (hcols : self.cols = n) :
    (matrixInverseMethod self .always).1 = none ∧ (toMatrix n self).det = 0 ∨
      ∃ inverse, (matrixInverseMethod self .always).1 = some inverse ∧ inverse.rows = n ∧
        inverse.cols = n ∧ toMatrix n inverse * toMatrix n self = 1 := by
  subst hrows
  have hreduced : Reduced self.rows 0 (augment self.rows self.data zeroBlock)
      (augment self.rows self.data zeroBlock) :=
    ⟨fun j hj => absurd hj (Nat.not_lt_zero j), fun _ _ => Iff.rfl⟩
  have hrun : (matrixInverseMethod self .always).1 =
      (inverseLoop self.rows self.rows 0 (augment self.rows self.data zeroBlock)).map fun aug =>
        ⟨rightHalf self.rows zeroBlock aug, self.rows, self.rows⟩ := by
    rw [matrixInverseMethod, if_neg (by omega)]
    dsimp only
    rw [createMatrix_always hn hn]
    dsimp only
    rw [createMatrix_always hn (by omega)]
  rcases inverseLoop_spec hreduced (Nat.zero_add _) with
    ⟨aug, hloop, hlast⟩ | ⟨hloop, j, hj, z, hz⟩
  · refine .inr ⟨⟨rightHalf self.rows zeroBlock aug, self.rows, self.rows⟩, ?_, rfl, rfl,
      hlast.mul_eq_one fun k hk m hm => ?_⟩
    · rw [hrun, hloop]
      rfl
    · exact fill_apply (fun k m => aug k (m + self.rows)) hk hm
  · refine .inl ⟨by rw [hrun, hloop]; rfl, det_toMatrix_eq_zero (z := z) hj fun k hk => ?_⟩
    have hzero := hz k hk
    rw [Foundation.residual, augment_left hk hj, sub_eq_zero] at hzero
    rw [hzero]
    refine Finset.sum_congr rfl fun m hm => ?_
    have hmj := Finset.mem_range.mp hm
    rw [augment_left hk (by omega)]

/-- **When there is an inverse**: exactly when the determinant method does not return 0, and then
it is the inverse on both sides. -/
theorem matrixInverseMethod_iff (hn : 1 ≤ n) (hrows : self.rows = n) (hcols : self.cols = n) :
    ((matrixInverseMethod self .always).1 = none ↔
      (matrixDeterminantMethod self .always).1.value = 0) ∧
    ∀ inverse, (matrixInverseMethod self .always).1 = some inverse →
      inverse.rows = n ∧ inverse.cols = n ∧ toMatrix n self * toMatrix n inverse = 1 ∧
        toMatrix n inverse * toMatrix n self = 1 := by
  have hdet : (matrixDeterminantMethod self .always).1.value = (toMatrix n self).det := by
    rw [matrixDeterminantMethod_spec hn hrows hcols]
    rfl
  rw [hdet]
  rcases matrixInverseMethod_spec hn hrows hcols with
    ⟨hnone, hzero⟩ | ⟨inverse, hsome, hinvRows, hinvCols, hmul⟩
  · rw [hnone]
    exact ⟨iff_of_true rfl hzero, fun _ h => absurd h (by simp)⟩
  · rw [hsome]
    refine ⟨iff_of_false (by simp) fun hzero => ?_, fun other h => ?_⟩
    · have hone := congrArg Matrix.det hmul
      rw [Matrix.det_mul, hzero, mul_zero, Matrix.det_one] at hone
      exact zero_ne_one hone
    · obtain rfl := Option.some.inj h
      exact ⟨hinvRows, hinvCols, mul_eq_one_comm.mp hmul, hmul⟩

/-- The matrix that exchanges two coordinates. -/
def exchange : MatrixImpl ℚ := ⟨fun i j => if i = j then 0 else 1, 2, 2⟩

theorem matrixInverseMethod_iff_exchange : ∃ inverse,
    (matrixInverseMethod exchange .always).1 = some inverse ∧
      toMatrix 2 exchange * toMatrix 2 inverse = 1 := by
  obtain ⟨hiff, hinverse⟩ :=
    matrixInverseMethod_iff (n := 2) (by decide) (show exchange.rows = 2 from rfl) rfl
  cases hrun : (matrixInverseMethod exchange .always).1 with
  | none =>
    have hzero := hiff.mp hrun
    rw [matrixDeterminantMethod_spec (n := 2) (by decide) rfl rfl, Matrix.det_fin_two] at hzero
    exact absurd hzero (by decide +kernel)
  | some inverse => exact ⟨inverse, rfl, (hinverse inverse hrun).2.2.1⟩

end Result

end Matrix

end OvaLib
