import OvaLib.Foundation.SevenProducts
import OvaLib.Matrix.Matrix

/-!
# Both products are the product

The loops of the plain product add up the sums of products. The recursion of Strassen's product
fills the same cells, by induction on the exponent of the size; padding with zeros changes no sum.

## The steps of the proof

The seven products and the four combinations of them are an identity of rings, for matrices made of
quadrants, which the library has: the quadrants are elements of a ring that is not commutative. What
is left for this module is that the loops of the source compute these elements. A block is read as a
matrix from an offset on, so that a quadrant is the same block with another offset; the loops that
split and combine are then statements about offsets.

The recursion stops at 64 rows or fewer with the plain product on blocks, so the induction has this
case as its basis, and it is the one that computes something.

## Scope

The two products agree for all operands whose dimensions are up to `2 ^ 30` and fit together, with
allocations succeeding. Beyond, the padded size is not found, which `PowerOfTwo` is about.

## Main results

* `strassenRecurse_spec` — the recursion multiplies blocks of size `2 ^ k`
* `matrixMultiplyStrassen_spec`, `matrixMultiplyMethod_spec` — the two products
* `strassen_eq_multiply` — they return the same matrix
-/

namespace OvaLib

namespace Matrix

open Foundation (loop loop_none loop_once loop_sum blockMul blockMul_congr blockMul_add_self
  sevenProducts_upperLeft sevenProducts_upperRight sevenProducts_lowerLeft sevenProducts_lowerRight)

variable {R : Type*} [Ring R]

/-! ## Loops

A loop that assigns cells is a function that is updated cell by cell; what it has done so far is
stated for any number of turns. -/

section Loops

variable {r : Block R} {x y i j n m p : ℕ} {v : R}

/-- The three nested loops of a plain product. -/
theorem accumulate_apply (a b : Block R) (hx : x < n) (hy : y < p) :
    loop n (fun i => loop m fun k => loop p fun j (r : Block R) =>
        r.set i j (r i j + a i k * b k j)) r x y =
      r x y + ∑ k ∈ Finset.range m, a x k * b k y := by
  refine loop_once hx (G := fun v => v + ∑ k ∈ Finset.range m, a x k * b k y) (fun r => ?_)
    (fun i _ hi r => ?_) r
  · refine loop_sum (fun k => loop p fun j (r : Block R) => r.set x j (r x j + a x k * b k j))
      (fun k => a x k * b k y) (fun k r => ?_) m r
    exact loop_once hy (G := fun v => v + a x k * b k y) (fun r => set_self)
      (fun j _ hj r => set_of_ne (.inr hj.symm)) r
  · exact loop_none (fun k _ r => loop_none (fun j _ r => set_of_ne (.inl hi.symm)) r) r

theorem accumulate_of_not (a b : Block R) (h : ¬ (x < n ∧ y < p)) :
    loop n (fun i => loop m fun k => loop p fun j (r : Block R) =>
        r.set i j (r i j + a i k * b k j)) r x y = r x y := by
  refine loop_none (fun i hi r => loop_none (fun k _ r =>
    loop_none (fun j hj r => set_of_ne ?_) r) r) r
  by_contra hcell
  rw [not_or, not_not, not_not] at hcell
  exact h ⟨hcell.1 ▸ hi, hcell.2 ▸ hj⟩

end Loops

/-! ## Blocks -/

section Blocks

variable {r : Block R} {x y n half di dj : ℕ}

/-- A block read from an offset on. -/
def shift (a : Block R) (di dj : ℕ) : Block R := fun x y => a (x + di) (y + dj)

theorem strassenAddBlock_apply (a b : Block R) (hx : x < n) (hy : y < n) :
    strassenAddBlock a b r n x y = a x y + b x y :=
  fill_apply (fun i j => a i j + b i j) hx hy

theorem strassenSubBlock_apply (a b : Block R) (hx : x < n) (hy : y < n) :
    strassenSubBlock a b r n x y = a x y - b x y :=
  fill_apply (fun i j => a i j - b i j) hx hy

theorem quadrant_apply (a : Block R) : ∀ x < half, ∀ y < half,
    quadrant a di dj half x y = shift a di dj x y :=
  fun _ hx _ hy => fill_apply (fun i j => a (i + di) (j + dj)) hx hy

theorem addQuadrants_apply {ei ej : ℕ} (a : Block R) : ∀ x < half, ∀ y < half,
    strassenAddBlock (quadrant a di dj half) (quadrant a ei ej half) r half x y =
      (shift a di dj + shift a ei ej) x y := by
  intro x hx y hy
  rw [strassenAddBlock_apply _ _ hx hy, quadrant_apply a x hx y hy, quadrant_apply a x hx y hy]
  rfl

theorem subQuadrants_apply {ei ej : ℕ} (a : Block R) : ∀ x < half, ∀ y < half,
    strassenSubBlock (quadrant a di dj half) (quadrant a ei ej half) r half x y =
      (shift a di dj - shift a ei ej) x y := by
  intro x hx y hy
  rw [strassenSubBlock_apply _ _ hx hy, quadrant_apply a x hx y hy, quadrant_apply a x hx y hy]
  rfl

/-- The `n` by `n` cells of `c` become those of the product. -/
def multiplied (n : ℕ) (a b c : Block R) : Block R :=
  fun x y => if x < n ∧ y < n then blockMul n a b x y else c x y

theorem multiplied_apply {a b c : Block R} (hx : x < n) (hy : y < n) :
    multiplied n a b c x y = blockMul n a b x y := if_pos ⟨hx, hy⟩

/-- `strassen_naive_block` clears the cells, and adds the product up in them. -/
theorem strassenNaiveBlock_eq (a b c : Block R) (n : ℕ) :
    strassenNaiveBlock a b c n = multiplied n a b c := by
  funext x y
  by_cases hcell : x < n ∧ y < n
  · rw [strassenNaiveBlock, accumulate_apply a b hcell.1 hcell.2,
      fill_apply (fun _ _ => 0) hcell.1 hcell.2, zero_add, multiplied_apply hcell.1 hcell.2]
    rfl
  · rw [strassenNaiveBlock, accumulate_of_not a b hcell, fill_of_not (fun _ _ => 0) hcell,
      multiplied, if_neg hcell]

/-- A product of blocks that agree on the cells it reads. -/
theorem multiplied_eq {a a' b b' c : Block R} (hx : x < n) (hy : y < n)
    (ha : ∀ i < n, ∀ k < n, a i k = a' i k) (hb : ∀ k < n, ∀ j < n, b k j = b' k j) :
    multiplied n a b c x y = blockMul n a' b' x y := by
  rw [multiplied_apply hx hy]
  exact blockMul_congr (fun k hk => ha x hx k hk) fun k hk => hb k hk y hy

/-! ## Combining

The four quadrants of the result, one at a time. -/

variable {m1 m2 m3 m4 m5 m6 m7 c : Block R} {u v : ℕ}

/-- One turn of the combining loop changes four cells. -/
theorem combineCell_of_ne {i j : ℕ} (h : (u ≠ i ∧ u ≠ i + half) ∨ (v ≠ j ∧ v ≠ j + half)) :
    combineCell half m1 m2 m3 m4 m5 m6 m7 i j c u v = c u v := by
  rw [combineCell]
  rw [set_of_ne (by omega), set_of_ne (by omega), set_of_ne (by omega), set_of_ne (by omega)]

/-- What a cell holds after the combining loop is what one turn puts there. -/
theorem strassenCombine_apply {w : R} (hx : x < half) (hy : y < half)
    (hu : u = x ∨ u = x + half) (hv : v = y ∨ v = y + half)
    (hturn : ∀ c, combineCell half m1 m2 m3 m4 m5 m6 m7 x y c u v = w) :
    strassenCombine half m1 m2 m3 m4 m5 m6 m7 c u v = w := by
  refine loop_once hx (G := fun _ => w) (fun r => ?_) (fun i hi hne r => ?_) c
  · exact loop_once hy (G := fun _ => w) hturn
      (fun j hj hne r => combineCell_of_ne (.inr (by omega))) r
  · exact loop_none (fun j hj r => combineCell_of_ne (.inl (by omega))) r

theorem strassenCombine_of_not (h : ¬ (u < half + half ∧ v < half + half)) :
    strassenCombine half m1 m2 m3 m4 m5 m6 m7 c u v = c u v :=
  loop_none (fun i hi r => loop_none (fun j hj r => combineCell_of_ne (by omega)) r) c

/-- **The seven products make the product**, quadrant by quadrant. -/
theorem strassenCombine_eq {a b : Block R}
    (h1 : ∀ x < half, ∀ y < half, m1 x y =
      blockMul half (a + shift a half half) (b + shift b half half) x y)
    (h2 : ∀ x < half, ∀ y < half, m2 x y =
      blockMul half (shift a half 0 + shift a half half) b x y)
    (h3 : ∀ x < half, ∀ y < half, m3 x y =
      blockMul half a (shift b 0 half - shift b half half) x y)
    (h4 : ∀ x < half, ∀ y < half, m4 x y =
      blockMul half (shift a half half) (shift b half 0 - b) x y)
    (h5 : ∀ x < half, ∀ y < half, m5 x y =
      blockMul half (a + shift a 0 half) (shift b half half) x y)
    (h6 : ∀ x < half, ∀ y < half, m6 x y =
      blockMul half (shift a half 0 - a) (b + shift b 0 half) x y)
    (h7 : ∀ x < half, ∀ y < half, m7 x y =
      blockMul half (shift a 0 half - shift a half half) (shift b half 0 + shift b half half) x y) :
    strassenCombine half m1 m2 m3 m4 m5 m6 m7 c = multiplied (half + half) a b c := by
  funext u v
  by_cases hcell : u < half + half ∧ v < half + half
  · rw [multiplied_apply hcell.1 hcell.2, blockMul_add_self]
    by_cases hu : u < half
    · by_cases hv : v < half
      · refine strassenCombine_apply hu hv (.inl rfl) (.inl rfl) fun c => ?_
        rw [combineCell]
        rw [set_of_ne (by omega), set_of_ne (by omega), set_of_ne (by omega), set_self,
          h1 u hu v hv, h4 u hu v hv, h5 u hu v hv, h7 u hu v hv, sevenProducts_upperLeft]
        rfl
      · obtain ⟨v, rfl⟩ : ∃ w, v = w + half := ⟨v - half, by omega⟩
        have hv : v < half := by omega
        refine strassenCombine_apply hu hv (.inl rfl) (.inr rfl) fun c => ?_
        rw [combineCell]
        rw [set_of_ne (by omega), set_of_ne (by omega), set_self, h3 u hu v hv, h5 u hu v hv,
          sevenProducts_upperRight]
        rfl
    · obtain ⟨u, rfl⟩ : ∃ w, u = w + half := ⟨u - half, by omega⟩
      have hu : u < half := by omega
      by_cases hv : v < half
      · refine strassenCombine_apply hu hv (.inr rfl) (.inl rfl) fun c => ?_
        rw [combineCell]
        rw [set_of_ne (by omega), set_self, h2 u hu v hv, h4 u hu v hv, sevenProducts_lowerLeft]
        rfl
      · obtain ⟨v, rfl⟩ : ∃ w, v = w + half := ⟨v - half, by omega⟩
        have hv : v < half := by omega
        refine strassenCombine_apply hu hv (.inr rfl) (.inr rfl) fun c => ?_
        rw [combineCell]
        rw [set_self, h1 u hu v hv, h2 u hu v hv, h3 u hu v hv, h6 u hu v hv,
          sevenProducts_lowerRight]
        rfl
  · rw [strassenCombine_of_not hcell, multiplied, if_neg hcell]

end Blocks

/-! ## With allocations succeeding -/

@[simp] theorem strassenAllocBlocks_always (count : ℕ) :
    strassenAllocBlocks count Allocator.always = (true, Allocator.always) := by
  induction count with
  | zero => rfl
  | succ count ih =>
    rw [strassenAllocBlocks, allocAll_always]
    dsimp only
    rw [ih]
    rfl

@[simp] theorem andThen_some {β γ : Type*} (x : β) (al : Allocator)
    (next : β → Allocator → Option γ × Allocator) : andThen (some x, al) next = next x al := rfl

/-- **The recursion multiplies** blocks whose size is a power of two. -/
theorem strassenRecurse_spec (k : ℕ) (a b c : Block R) :
    strassenRecurse a b c (2 ^ k) Allocator.always =
      (some (multiplied (2 ^ k) a b c), Allocator.always) := by
  induction k generalizing a b c with
  | zero => rw [strassenRecurse, if_pos (by decide), strassenNaiveBlock_eq]
  | succ k ih =>
    rw [strassenRecurse]
    by_cases hle : 2 ^ (k + 1) ≤ strassenThreshold
    · rw [if_pos hle, strassenNaiveBlock_eq]
    have hhalf : 2 ^ (k + 1) / 2 = 2 ^ k := by rw [pow_succ, Nat.mul_div_cancel _ Nat.two_pos]
    have hsize : 2 ^ (k + 1) = 2 ^ k + 2 ^ k := by rw [pow_succ, mul_two]
    rw [if_neg hle, strassenAllocBlocks_always, hhalf, hsize]
    extract_lets half a11 a12 a21 a22 b11 b12 b21 b22 t1 t2 t1₂ t1₃ t1₄ t1₅ t1₆ t2₆ t1₇ t2₇
    have hrec : ∀ a b c : Block R, strassenRecurse a b c half Allocator.always =
        (some (multiplied half a b c), Allocator.always) := ih
    dsimp only
    rw [if_pos rfl, hrec, andThen_some, hrec, andThen_some, hrec, andThen_some, hrec, andThen_some,
      hrec, andThen_some, hrec, andThen_some, hrec, andThen_some]
    refine congrArg (fun r => (some r, Allocator.always)) (strassenCombine_eq ?_ ?_ ?_ ?_ ?_ ?_ ?_)
    · exact fun x hx y hy => multiplied_eq hx hy (addQuadrants_apply a) (addQuadrants_apply b)
    · exact fun x hx y hy => multiplied_eq hx hy (addQuadrants_apply a) (quadrant_apply b)
    · exact fun x hx y hy => multiplied_eq hx hy (quadrant_apply a) (subQuadrants_apply b)
    · exact fun x hx y hy => multiplied_eq hx hy (quadrant_apply a) (subQuadrants_apply b)
    · exact fun x hx y hy => multiplied_eq hx hy (addQuadrants_apply a) (quadrant_apply b)
    · exact fun x hx y hy => multiplied_eq hx hy (subQuadrants_apply a) (addQuadrants_apply b)
    · exact fun x hx y hy => multiplied_eq hx hy (subQuadrants_apply a) (addQuadrants_apply b)

/-! ## The two products -/

omit [Ring R] in
/-- Copied rows. -/
theorem copyRows_eq (dst src : Block R) (rows len : ℕ) :
    copyRows dst src rows len = fun x y => if x < rows ∧ y < len then src x y else dst x y := by
  funext x y
  by_cases hx : x < rows
  · refine (loop_once hx (G := fun v => if y < len then src x y else v) (fun r => ?_)
      (fun i _ hne r => if_neg fun hcell => hne hcell.1.symm) dst).trans ?_
    · show (if x = x ∧ y < len then src x y else r x y) = _
      simp
    · simp [hx]
  · rw [if_neg fun hcell => hx hcell.1]
    refine loop_none (fun i hi r => if_neg fun hcell => hx ?_) dst
    exact hcell.1 ▸ hi

/-- The `int` loop finds a power of two that is large enough. -/
theorem strassenNextPowerOfTwo_eq {n : ℕ} (hn : n ≤ 2 ^ 30) :
    ∃ k, n ≤ 2 ^ k ∧ strassenNextPowerOfTwo n = some (2 ^ k) := by
  obtain ⟨k, -, -, hle, hk⟩ := doubleUntil_pow (Nat.le_refl 30) (show (n : ℤ) ≤ 2 ^ 30 by omega)
    (Nat.zero_le 30) (show 30 - 0 < 64 by omega)
  refine ⟨k, by exact_mod_cast hle, ?_⟩
  rw [strassenNextPowerOfTwo, ← pow_zero (2 : ℤ), hk, Option.map_some]
  rfl

/-- The product of two matrices: its entries are the sums of products. -/
def product (lhs rhs : MatrixImpl R) : MatrixImpl R where
  data i j :=
    if i < lhs.rows ∧ j < rhs.cols then ∑ k ∈ Finset.range lhs.cols, lhs.data i k * rhs.data k j
    else 0
  rows := lhs.rows
  cols := rhs.cols

theorem createMatrix_always {rows cols : ℕ} (hrows : 0 < rows) (hcols : 0 < cols) :
    createMatrix rows cols Allocator.always =
      (some (⟨zeroBlock, rows, cols⟩ : MatrixImpl R), Allocator.always) := by
  rw [createMatrix, if_neg (by omega), allocAll_always]
  rfl

/-- Padding with zeros changes no sum. -/
theorem blockMul_padded {a b : Block R} {m n p N x y : ℕ} (hx : x < m) (hy : y < p) (hn : n ≤ N) :
    blockMul N (copyRows zeroBlock a m n) (copyRows zeroBlock b n p) x y =
      ∑ k ∈ Finset.range n, a x k * b k y := by
  rw [blockMul]
  rw [copyRows_eq, copyRows_eq, ← Finset.sum_subset (Finset.range_mono hn)]
  · refine Finset.sum_congr rfl fun k hk => ?_
    have hkn := Finset.mem_range.mp hk
    dsimp only
    rw [if_pos ⟨hx, hkn⟩, if_pos ⟨hkn, hy⟩]
  · intro k _ hk
    have hkn : ¬ k < n := fun hlt => hk (Finset.mem_range.mpr hlt)
    dsimp only
    rw [if_neg fun hcell => hkn hcell.2]
    exact zero_mul _

/-- **The plain product.** -/
theorem matrixMultiplyMethod_spec {lhs rhs : MatrixImpl R} (hdim : lhs.cols = rhs.rows)
    (hrows : 0 < lhs.rows) (hcols : 0 < rhs.cols) :
    matrixMultiplyMethod lhs rhs Allocator.always =
      (some (product lhs rhs), Allocator.always) := by
  rw [matrixMultiplyMethod, if_neg (not_not.mpr hdim), createMatrix_always hrows hcols,
    andThen_some]
  refine congrArg (fun data => (some (⟨data, lhs.rows, rhs.cols⟩ : MatrixImpl R),
    Allocator.always)) ?_
  funext x y
  by_cases hcell : x < lhs.rows ∧ y < rhs.cols
  · rw [accumulate_apply lhs.data rhs.data hcell.1 hcell.2, if_pos hcell]
    exact zero_add _
  · rw [accumulate_of_not lhs.data rhs.data hcell, if_neg hcell]
    rfl

/-- **Strassen's product.** -/
theorem matrixMultiplyStrassen_spec {lhs rhs : MatrixImpl R} (hdim : lhs.cols = rhs.rows)
    (hrows : 0 < lhs.rows) (hcols : 0 < rhs.cols) (hm : lhs.rows ≤ 2 ^ 30)
    (hn : lhs.cols ≤ 2 ^ 30) (hp : rhs.cols ≤ 2 ^ 30) :
    matrixMultiplyStrassen lhs rhs Allocator.always =
      some (some (product lhs rhs), Allocator.always) := by
  rw [matrixMultiplyStrassen, if_neg (not_not.mpr hdim)]
  extract_lets maxDim maxDim₂ maxDim₃
  have hmax : maxDim₃ ≤ 2 ^ 30 ∧ lhs.rows ≤ maxDim₃ ∧ lhs.cols ≤ maxDim₃ ∧ rhs.cols ≤ maxDim₃ := by
    simp only [maxDim₃, maxDim₂, maxDim]
    split_ifs <;> omega
  obtain ⟨hle, hrowsle, hcolsle, hple⟩ := hmax
  obtain ⟨k, hk, hpow⟩ := strassenNextPowerOfTwo_eq hle
  rw [hpow, Option.map_some, strassenAllocBlocks_always]
  dsimp only
  rw [if_pos rfl, strassenRecurse_spec, andThen_some, createMatrix_always hrows hcols,
    andThen_some]
  refine congrArg (fun data => some (some (⟨data, lhs.rows, rhs.cols⟩ : MatrixImpl R),
    Allocator.always)) ?_
  rw [copyRows_eq]
  funext x y
  by_cases hcell : x < lhs.rows ∧ y < rhs.cols
  · rw [if_pos hcell, if_pos hcell, multiplied_apply (by omega) (by omega),
      blockMul_padded hcell.1 hcell.2 (by omega)]
  · rw [if_neg hcell, if_neg hcell]
    rfl

/-- **Strassen's product is the plain product**, and its entries are the sums of products, for all
dimensions up to `2 ^ 30`. -/
theorem strassen_eq_multiply {a b : MatrixImpl R} (hdim : a.cols = b.rows) (hm : 0 < a.rows)
    (hp : 0 < b.cols) (hm30 : a.rows ≤ 2 ^ 30) (hn30 : a.cols ≤ 2 ^ 30)
    (hp30 : b.cols ≤ 2 ^ 30) :
    ∃ c : MatrixImpl R,
      matrixMultiplyStrassen a b Allocator.always = some (some c, Allocator.always) ∧
      matrixMultiplyMethod a b Allocator.always = (some c, Allocator.always) ∧
      c.rows = a.rows ∧ c.cols = b.cols ∧
      ∀ i < a.rows, ∀ j < b.cols, c.data i j = ∑ k ∈ Finset.range a.cols, a.data i k * b.data k j :=
  ⟨product a b, matrixMultiplyStrassen_spec hdim hm hp hm30 hn30 hp30,
    matrixMultiplyMethod_spec hdim hm hp, rfl, rfl, fun _ hi _ hj => if_pos ⟨hi, hj⟩⟩

/-- The product of a row of 100 ones and a column of 100 twos, by the recursion. -/
theorem strassen_eq_multiply_ones :
    ∃ c : MatrixImpl ℤ,
      matrixMultiplyStrassen ⟨fun _ _ => 1, 1, 100⟩ ⟨fun _ _ => 2, 100, 1⟩ Allocator.always =
        some (some c, Allocator.always) ∧ c.data 0 0 = 200 := by
  obtain ⟨c, hc, -, -, -, hentry⟩ := strassen_eq_multiply
    (a := (⟨fun _ _ => 1, 1, 100⟩ : MatrixImpl ℤ)) (b := ⟨fun _ _ => 2, 100, 1⟩)
    rfl (by decide) (by decide) (by decide) (by decide) (by decide)
  refine ⟨c, hc, (hentry 0 Nat.one_pos 0 Nat.one_pos).trans ?_⟩
  simp

end Matrix

end OvaLib
