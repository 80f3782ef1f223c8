import Mathlib.Algebra.BigOperators.Group.Finset.Basic
import Mathlib.Algebra.BigOperators.Intervals

/-!
# Counting loops over tables

A loop whose counter runs from 0 up, and what it leaves in a table with two indices. Its body
changes some cells of the table: a cell that only one turn changes holds what that turn made of it,
a cell that every turn adds to holds a sum.

Nested loops over tables are taken apart from the inside: the inner loop becomes a statement about
the cells of a row, which is the body of the outer one. The cells are read in the middle of the loop
as well, and so the statements are about all states that a loop goes through, and not only about the
last.

## Main results

* `loop_eq`, `loop_table` — the states that a loop goes through
* `loop_none`, `loop_once` — a cell that no turn or one turn changes
* `loop_sum` — a cell that every turn adds to
-/

namespace Foundation

/-- `for (i = 0; i < n; i++)` -/
def loop {σ : Type*} (n : ℕ) (body : ℕ → σ → σ) (s : σ) : σ :=
  (List.range n).foldl (fun s i => body i s) s

section

variable {σ R : Type*}

@[simp] theorem loop_zero (body : ℕ → σ → σ) (s : σ) : loop 0 body s = s := rfl

theorem loop_succ (n : ℕ) (body : ℕ → σ → σ) (s : σ) :
    loop (n + 1) body s = body n (loop n body s) := by
  rw [loop, List.range_succ, List.foldl_append]
  rfl

/-- **A loop goes through the states that its turns lead through.** -/
theorem loop_eq {body : ℕ → σ → σ} (state : ℕ → σ) {n : ℕ}
    (hstep : ∀ i < n, body i (state i) = state (i + 1)) : loop n body (state 0) = state n := by
  induction n with
  | zero => rfl
  | succ n ih =>
    rw [loop_succ, ih fun i hi => hstep i (Nat.lt_succ_of_lt hi), hstep n n.lt_succ_self]

/-- **The tables that a loop goes through**, cell by cell. -/
theorem loop_table {body : ℕ → (ℕ → ℕ → R) → ℕ → ℕ → R} (state : ℕ → ℕ → ℕ → R) {n : ℕ}
    {r : ℕ → ℕ → R} (hzero : ∀ x y, state 0 x y = r x y)
    (hstep : ∀ i < n, ∀ x y, body i (state i) x y = state (i + 1) x y) (x y : ℕ) :
    loop n body r x y = state n x y := by
  have hstart : r = state 0 := funext fun x => funext fun y => (hzero x y).symm
  rw [hstart, loop_eq state fun i hi => funext fun x => funext fun y => hstep i hi x y]

/-- A cell that no turn changes. -/
theorem loop_none {body : ℕ → (ℕ → ℕ → R) → ℕ → ℕ → R} {x y n : ℕ}
    (hmiss : ∀ i < n, ∀ r, body i r x y = r x y) (r : ℕ → ℕ → R) : loop n body r x y = r x y := by
  induction n with
  | zero => rfl
  | succ n ih =>
    rw [loop_succ, hmiss n n.lt_succ_self]
    exact ih fun i hi => hmiss i (Nat.lt_succ_of_lt hi)

/-- **A cell that one turn changes.** -/
theorem loop_once {body : ℕ → (ℕ → ℕ → R) → ℕ → ℕ → R} {x y i n : ℕ} (hi : i < n) {G : R → R}
    (hhit : ∀ r, body i r x y = G (r x y))
    (hmiss : ∀ j < n, j ≠ i → ∀ r, body j r x y = r x y) (r : ℕ → ℕ → R) :
    loop n body r x y = G (r x y) := by
  induction n with
  | zero => omega
  | succ n ih =>
    rw [loop_succ]
    rcases Nat.lt_succ_iff_lt_or_eq.mp hi with hlt | rfl
    · rw [hmiss n n.lt_succ_self (Nat.ne_of_gt hlt)]
      exact ih hlt fun j hj => hmiss j (Nat.lt_succ_of_lt hj)
    · rw [hhit, loop_none fun j hj => hmiss j (Nat.lt_succ_of_lt hj) (Nat.ne_of_lt hj)]

/-- **A cell that every turn adds to.** -/
theorem loop_sum [AddCommMonoid R] (body : ℕ → (ℕ → ℕ → R) → ℕ → ℕ → R) (F : ℕ → R) {x y : ℕ}
    (hbody : ∀ i r, body i r x y = r x y + F i) (n : ℕ) (r : ℕ → ℕ → R) :
    loop n body r x y = r x y + ∑ i ∈ Finset.range n, F i := by
  induction n with
  | zero => simp
  | succ n ih => rw [loop_succ, hbody, ih, Finset.sum_range_succ, add_assoc]

end

end Foundation
