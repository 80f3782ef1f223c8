import Mathlib.Algebra.Ring.Basic
import OvaLib.Foundation.Loop
import OvaLib.Types

/-!
# Matrix products

The two products of `matrix.c`, over any ring in place of `double`. A `double **` is a function of
the row and the column; what lies outside the allocated cells is never read or written. A fresh
buffer comes from `calloc`, so it is zero.

## The contract

Both functions return a new matrix, or `NULL` when the operands do not fit together or memory runs
out. The method adds up the products of the entries, and `matrix_multiply_strassen` is meant to give
the same matrix with fewer multiplications. It pads both operands with zeros up to a power of two,
splits each into quadrants, and makes seven products of half the size out of sums and differences of
these, down to blocks of at most 64 rows.

## Implementation notes

`double` is replaced by an arbitrary ring, since no statement about these functions is about
rounding. What is proved holds of the algorithm with exact numbers.

A function that allocates gives `none` for failure, and what is left of the allocator. Blocks that
are given back need no counterpart. Where many blocks are allocated and tested together, as in
`strassen_recurse`, all of the attempts are made, whichever fails first.
-/

namespace OvaLib

namespace Matrix

open Foundation (loop loop_none loop_once)

/-! ## Allocation -/

/-- Allocations one after the other, up to the first that fails. -/
def allocAll : ℕ → Allocator → Bool × Allocator
  | 0, al => (true, al)
  | count + 1, al =>
    let (ok, al) := al.alloc
    if ok then allocAll count al else (false, al)

@[simp] theorem allocAll_always (count : ℕ) :
    allocAll count Allocator.always = (true, Allocator.always) := by
  induction count with
  | zero => rfl
  | succ count ih =>
    rw [allocAll, Allocator.alloc_always]
    exact ih

/-- What follows a step that can fail. -/
def andThen {β γ : Type*} (r : Option β × Allocator) (next : β → Allocator → Option γ × Allocator) :
    Option γ × Allocator :=
  match r with
  | (none, al) => (none, al)
  | (some x, al) => next x al

/-! ## Blocks and matrices -/

/-- The cells behind a `double **`. -/
abbrev Block (R : Type*) := ℕ → ℕ → R

/-- Assign a cell. -/
def Block.set {R : Type*} (r : Block R) (i j : ℕ) (v : R) : Block R :=
  fun x y => if x = i ∧ y = j then v else r x y

/-- `memcpy` of the first `len` cells of a row. -/
def Block.copyRow {R : Type*} (r : Block R) (i : ℕ) (src : ℕ → R) (len : ℕ) : Block R :=
  fun x y => if x = i ∧ y < len then src y else r x y

section Blocks

variable {R : Type*} {r : Block R} {x y i j n m : ℕ} {v : R}

theorem set_self : r.set x y v x y = v := if_pos ⟨rfl, rfl⟩

theorem set_of_ne (h : x ≠ i ∨ y ≠ j) : r.set i j v x y = r x y :=
  if_neg fun hcell => h.elim (fun hx => hx hcell.1) fun hy => hy hcell.2

/-- Two nested loops that assign every cell once. -/
theorem fill_apply (f : ℕ → ℕ → R) (hx : x < n) (hy : y < m) :
    loop n (fun i => loop m fun j (r : Block R) => r.set i j (f i j)) r x y = f x y := by
  refine loop_once hx (G := fun _ => f x y) (fun r => ?_) (fun i _ hi r => ?_) r
  · exact loop_once hy (G := fun _ => f x y) (fun r => set_self)
      (fun j _ hj r => set_of_ne (.inr hj.symm)) r
  · exact loop_none (fun j _ r => set_of_ne (.inl hi.symm)) r

/-- They leave the other cells alone. -/
theorem fill_of_not (f : ℕ → ℕ → R) (h : ¬ (x < n ∧ y < m)) :
    loop n (fun i => loop m fun j (r : Block R) => r.set i j (f i j)) r x y = r x y := by
  refine loop_none (fun i hi r => loop_none (fun j hj r => set_of_ne ?_) r) r
  by_contra hcell
  rw [not_or, not_not, not_not] at hcell
  exact h ⟨hcell.1 ▸ hi, hcell.2 ▸ hj⟩

end Blocks

/-- `matrix_impl`. -/
structure MatrixImpl (R : Type*) where
  /-- The entries, by row and column. -/
  data : Block R
  rows : ℕ
  cols : ℕ

variable {R : Type*} [Ring R]

/-- The cells that `calloc` hands out. -/
def zeroBlock : Block R := fun _ _ => 0

/-- `create_matrix`: the object, its `impl`, the row pointers and the buffer are asked for. -/
def createMatrix (rows cols : ℕ) (al : Allocator) : Option (MatrixImpl R) × Allocator :=
  if rows = 0 ∨ cols = 0 then (none, al)
  else
    let (ok, al) := allocAll 4 al
    (if ok then some ⟨zeroBlock, rows, cols⟩ else none, al)

/-- `matrix_multiply_method`. -/
def matrixMultiplyMethod (lhs rhs : MatrixImpl R) (al : Allocator) :
    Option (MatrixImpl R) × Allocator :=
  if lhs.cols ≠ rhs.rows then (none, al)
  else
    andThen (createMatrix lhs.rows rhs.cols al) fun out al =>
      let data := loop lhs.rows (fun i => loop lhs.cols fun k => loop rhs.cols fun j out =>
        out.set i j (out i j + lhs.data i k * rhs.data k j)) out.data
      (some { out with data := data }, al)

/-! ## Strassen's product

The source writes its products into blocks of the caller, and uses two temporaries for the sums. The
model assigns the same cells in the same order. -/

/-- `STRASSEN_THRESHOLD`. -/
def strassenThreshold : ℕ := 64

/-- `strassen_next_power_of_two`. Beyond `2 ^ 30` the loop does not end. -/
def strassenNextPowerOfTwo (n : ℕ) : Option ℕ := (doubleUntil 64 1 n).map Int.toNat

/-- `strassen_alloc_block` for a number of blocks, with one test for all of them. -/
def strassenAllocBlocks : ℕ → Allocator → Bool × Allocator
  | 0, al => (true, al)
  | count + 1, al =>
    let (block, al) := allocAll 2 al
    let (others, al) := strassenAllocBlocks count al
    (block && others, al)

/-- `strassen_add_block`. -/
def strassenAddBlock (a b result : Block R) (n : ℕ) : Block R :=
  loop n (fun i => loop n fun j result => result.set i j (a i j + b i j)) result

/-- `strassen_sub_block`. -/
def strassenSubBlock (a b result : Block R) (n : ℕ) : Block R :=
  loop n (fun i => loop n fun j result => result.set i j (a i j - b i j)) result

/-- `strassen_naive_block`. -/
def strassenNaiveBlock (a b result : Block R) (n : ℕ) : Block R :=
  let result := loop n (fun i => loop n fun j result => result.set i j 0) result
  loop n (fun i => loop n fun k => loop n fun j result =>
    result.set i j (result i j + a i k * b k j)) result

/-- The part of the splitting loop of `strassen_recurse` that fills one quadrant. -/
def quadrant (src : Block R) (di dj half : ℕ) : Block R :=
  loop half (fun i => loop half fun j result => result.set i j (src (i + di) (j + dj))) zeroBlock

/-- The body of the combining loop of `strassen_recurse`. -/
def combineCell (half : ℕ) (m1 m2 m3 m4 m5 m6 m7 : Block R) (i j : ℕ) (c : Block R) : Block R :=
  let c := c.set i j (m1 i j + m4 i j - m5 i j + m7 i j)
  let c := c.set i (j + half) (m3 i j + m5 i j)
  let c := c.set (i + half) j (m2 i j + m4 i j)
  c.set (i + half) (j + half) (m1 i j - m2 i j + m3 i j + m6 i j)

/-- The combining loop. -/
def strassenCombine (half : ℕ) (m1 m2 m3 m4 m5 m6 m7 c : Block R) : Block R :=
  loop half (fun i => loop half (combineCell half m1 m2 m3 m4 m5 m6 m7 i)) c

theorem half_lt {n : ℕ} (h : ¬ n ≤ strassenThreshold) : n / 2 < n :=
  Nat.div_lt_self (Nat.pos_of_ne_zero fun hn => h (hn ▸ Nat.zero_le _)) Nat.one_lt_two

/-- `strassen_recurse`; `none` is the result -1. The temporaries `t1` and `t2` are used again and
again. -/
def strassenRecurse (a b c : Block R) (n : ℕ) (al : Allocator) : Option (Block R) × Allocator :=
  if n ≤ strassenThreshold then (some (strassenNaiveBlock a b c n), al)
  else
    let half := n / 2
    let (ok, al) := strassenAllocBlocks 17 al
    if ok then
      let a11 := quadrant a 0 0 half
      let a12 := quadrant a 0 half half
      let a21 := quadrant a half 0 half
      let a22 := quadrant a half half half
      let b11 := quadrant b 0 0 half
      let b12 := quadrant b 0 half half
      let b21 := quadrant b half 0 half
      let b22 := quadrant b half half half
      let t1 := strassenAddBlock a11 a22 zeroBlock half
      let t2 := strassenAddBlock b11 b22 zeroBlock half
      andThen (strassenRecurse t1 t2 zeroBlock half al) fun m1 al =>
      let t1 := strassenAddBlock a21 a22 t1 half
      andThen (strassenRecurse t1 b11 zeroBlock half al) fun m2 al =>
      let t1 := strassenSubBlock b12 b22 t1 half
      andThen (strassenRecurse a11 t1 zeroBlock half al) fun m3 al =>
      let t1 := strassenSubBlock b21 b11 t1 half
      andThen (strassenRecurse a22 t1 zeroBlock half al) fun m4 al =>
      let t1 := strassenAddBlock a11 a12 t1 half
      andThen (strassenRecurse t1 b22 zeroBlock half al) fun m5 al =>
      let t1 := strassenSubBlock a21 a11 t1 half
      let t2 := strassenAddBlock b11 b12 t2 half
      andThen (strassenRecurse t1 t2 zeroBlock half al) fun m6 al =>
      let t1 := strassenSubBlock a12 a22 t1 half
      let t2 := strassenAddBlock b21 b22 t2 half
      andThen (strassenRecurse t1 t2 zeroBlock half al) fun m7 al =>
      (some (strassenCombine half m1 m2 m3 m4 m5 m6 m7 c), al)
    else (none, al)
termination_by n
decreasing_by all_goals exact half_lt ‹_›

/-- The first rows of a block are filled from rows of a matrix. -/
def copyRows (dst src : Block R) (rows len : ℕ) : Block R :=
  loop rows (fun i dst => dst.copyRow i (src i) len) dst

/-- `matrix_multiply_strassen`; the outer `none` is a call that does not return. -/
def matrixMultiplyStrassen (lhs rhs : MatrixImpl R) (al : Allocator) :
    Option (Option (MatrixImpl R) × Allocator) :=
  if lhs.cols ≠ rhs.rows then some (none, al)
  else
    let maxDim := lhs.rows
    let maxDim := if lhs.cols > maxDim then lhs.cols else maxDim
    let maxDim := if rhs.cols > maxDim then rhs.cols else maxDim
    (strassenNextPowerOfTwo maxDim).map fun n =>
      let (ok, al) := strassenAllocBlocks 3 al
      if ok then
        let pa := copyRows zeroBlock lhs.data lhs.rows lhs.cols
        let pb := copyRows zeroBlock rhs.data lhs.cols rhs.cols
        andThen (strassenRecurse pa pb zeroBlock n al) fun pc al =>
        andThen (createMatrix lhs.rows rhs.cols al) fun out al =>
        (some { out with data := copyRows out.data pc lhs.rows rhs.cols }, al)
      else (none, al)

end Matrix

end OvaLib
