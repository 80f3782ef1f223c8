import Mathlib.Algebra.BigOperators.Intervals
import Mathlib.Tactic.NoncommRing

/-!
# Products of blocks

Square blocks are read from tables with two indices. A product of blocks of even size can be had
from seven products of blocks of half the size, in place of the eight of the definition; the seven
are added up with mixed signs, so the entries need subtraction, but they need not commute.

The identities are those of two by two matrices over a ring that is not commutative, applied to the
quadrants of the blocks. They are stated for the entries of the sums and differences of quadrants,
which is the form that a loop over the entries has.

## Main results

* `blockMul_add_self` — a product adds two products of quadrants
* `sevenProducts_upperLeft`, `sevenProducts_upperRight`, `sevenProducts_lowerLeft`,
  `sevenProducts_lowerRight` — the quadrants of a product from seven products
-/

namespace Foundation

variable {R : Type*} [Ring R]

/-- The product of the `n` by `n` blocks of two tables. -/
def blockMul (n : ℕ) (a b : ℕ → ℕ → R) (i j : ℕ) : R := ∑ k ∈ Finset.range n, a i k * b k j

/-- A product reads the rows and columns below `n`. -/
theorem blockMul_congr {n : ℕ} {a a' b b' : ℕ → ℕ → R} {i j : ℕ}
    (ha : ∀ k < n, a i k = a' i k) (hb : ∀ k < n, b k j = b' k j) :
    blockMul n a b i j = blockMul n a' b' i j :=
  Finset.sum_congr rfl fun k hk => by
    rw [ha k (Finset.mem_range.mp hk), hb k (Finset.mem_range.mp hk)]

/-- A product of blocks of twice the size adds two products of quadrants. -/
theorem blockMul_add_self (n : ℕ) (a b : ℕ → ℕ → R) (i j : ℕ) :
    blockMul (n + n) a b i j = blockMul n a b i j +
      blockMul n (fun i k => a i (k + n)) (fun k j => b (k + n) j) i j := by
  rw [blockMul]
  rw [Finset.sum_range_add]
  congr 1
  exact Finset.sum_congr rfl fun k _ => by rw [Nat.add_comm n k]

variable (n : ℕ) (a₁₁ a₁₂ a₂₁ a₂₂ b₁₁ b₁₂ b₂₁ b₂₂ : ℕ → ℕ → R) (i j : ℕ)

/-! ## The seven products -/

/-- The upper left quadrant of the seven-product scheme. -/
theorem sevenProducts_upperLeft :
    blockMul n (a₁₁ + a₂₂) (b₁₁ + b₂₂) i j + blockMul n a₂₂ (b₂₁ - b₁₁) i j -
        blockMul n (a₁₁ + a₁₂) b₂₂ i j + blockMul n (a₁₂ - a₂₂) (b₂₁ + b₂₂) i j =
      blockMul n a₁₁ b₁₁ i j + blockMul n a₁₂ b₂₁ i j := by
  simp only [blockMul, ← Finset.sum_add_distrib, ← Finset.sum_sub_distrib]
  refine Finset.sum_congr rfl fun k _ => ?_
  simp only [Pi.add_apply, Pi.sub_apply]
  noncomm_ring

/-- The upper right quadrant. -/
theorem sevenProducts_upperRight :
    blockMul n a₁₁ (b₁₂ - b₂₂) i j + blockMul n (a₁₁ + a₁₂) b₂₂ i j =
      blockMul n a₁₁ b₁₂ i j + blockMul n a₁₂ b₂₂ i j := by
  simp only [blockMul, ← Finset.sum_add_distrib]
  refine Finset.sum_congr rfl fun k _ => ?_
  simp only [Pi.add_apply, Pi.sub_apply]
  noncomm_ring

/-- The lower left quadrant. -/
theorem sevenProducts_lowerLeft :
    blockMul n (a₂₁ + a₂₂) b₁₁ i j + blockMul n a₂₂ (b₂₁ - b₁₁) i j =
      blockMul n a₂₁ b₁₁ i j + blockMul n a₂₂ b₂₁ i j := by
  simp only [blockMul, ← Finset.sum_add_distrib]
  refine Finset.sum_congr rfl fun k _ => ?_
  simp only [Pi.add_apply, Pi.sub_apply]
  noncomm_ring

/-- The lower right quadrant. -/
theorem sevenProducts_lowerRight :
    blockMul n (a₁₁ + a₂₂) (b₁₁ + b₂₂) i j - blockMul n (a₂₁ + a₂₂) b₁₁ i j +
        blockMul n a₁₁ (b₁₂ - b₂₂) i j + blockMul n (a₂₁ - a₁₁) (b₁₁ + b₁₂) i j =
      blockMul n a₂₁ b₁₂ i j + blockMul n a₂₂ b₂₂ i j := by
  simp only [blockMul, ← Finset.sum_add_distrib, ← Finset.sum_sub_distrib]
  refine Finset.sum_congr rfl fun k _ => ?_
  simp only [Pi.add_apply, Pi.sub_apply]
  noncomm_ring

end Foundation
