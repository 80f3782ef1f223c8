import Mathlib.LinearAlgebra.Matrix.Determinant.Basic
import Mathlib.Tactic.Ring

/-!
# Determinants by elimination

One column of Gaussian elimination. With a pivot in the corner, the rows below are cleared by
subtracting multiples of the first row, and what is left is a matrix with one row and one column
less.

The two statements are those an elimination uses when it goes from a matrix to the trailing block of
the next one: a swap of two rows turns the sign around, and after the first column is cleared the
determinant is the corner times that of the rest. The rest is given as a matrix of its own, so that
the step can be repeated.

## Main results

* `det_swap_rows` — two rows change places
* `det_eq_pivot_mul` — the corner is the pivot
-/

namespace Foundation

open Matrix

variable {K : Type*} [Field K] {m : ℕ}

/-- Two different rows change places. -/
theorem det_swap_rows {ι : Type*} [DecidableEq ι] [Fintype ι] (M : Matrix ι ι K) {i k : ι}
    (hik : i ≠ k) : (of fun a b => M (Equiv.swap i k a) b).det = -M.det := by
  have hperm := det_permute (Equiv.swap i k) M
  rw [Equiv.Perm.sign_swap hik, Units.val_neg, Units.val_one, Int.cast_neg, Int.cast_one,
    neg_one_mul] at hperm
  exact hperm

/-- Below the corner, the first column is zero. -/
theorem det_of_cleared {M : Matrix (Fin (m + 1)) (Fin (m + 1)) K}
    (h : ∀ a : Fin m, M a.succ 0 = 0) :
    M.det = M 0 0 * (of fun a b => M (Fin.succ a) (Fin.succ b)).det := by
  rw [det_succ_column_zero, Fin.sum_univ_succ, Finset.sum_eq_zero fun a _ => by
    rw [h, mul_zero, zero_mul], add_zero]
  rw [Fin.val_zero, pow_zero, one_mul, Fin.succAbove_zero]
  rfl

/-- **The corner is the pivot.** -/
theorem det_eq_pivot_mul {M : Matrix (Fin (m + 1)) (Fin (m + 1)) K} (h : M 0 0 ≠ 0) :
    M.det = M 0 0 * (of fun a b => M (Fin.succ a) (Fin.succ b) -
      M 0 (Fin.succ b) * (M (Fin.succ a) 0 / M 0 0)).det := by
  -- the matrix after the rows below are cleared
  let c : Fin (m + 1) → K := fun a => if a = 0 then 0 else M a 0 / M 0 0
  let N : Matrix (Fin (m + 1)) (Fin (m + 1)) K := of fun a b => M a b - M 0 b * c a
  have hfirst : ∀ b, N 0 b = M 0 b := fun b => by simp [N, c]
  have hsucc : ∀ (a : Fin m) b, N a.succ b = M a.succ b - M 0 b * (M a.succ 0 / M 0 0) :=
    fun a b => by simp [N, c]
  have hdet : M.det = N.det := by
    refine det_eq_of_forall_row_eq_smul_add_const c 0 (if_pos rfl) fun a b => ?_
    rw [hfirst]
    simp only [N, of_apply]
    ring
  have hcleared : ∀ a : Fin m, N a.succ 0 = 0 := by
    intro a
    rw [hsucc, mul_div_cancel₀ _ h, sub_self]
  rw [hdet, det_of_cleared hcleared, hfirst]
  simp only [hsucc]

end Foundation
