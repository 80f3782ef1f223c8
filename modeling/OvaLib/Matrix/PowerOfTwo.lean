import OvaLib.Graph.Capacity
import OvaLib.Matrix.Strassen

/-!
# The padded size

`strassen_next_power_of_two` doubles an `int` from 1, in the loop that `graph_ensure_capacity` runs
from a capacity. Nothing bounds the dimension it is called with: beyond `2 ^ 30` the doubling wraps
to `INT_MIN` and from there to 0, where it stays, so that `matrix_multiply_strassen` does not come
to its allocations.

The multiplication overflows in C, and the model wraps it around. What is proved to be safe is
stated without that: `PadsTo` asks that every product of the loop is in the range of `int`, and so
the equivalence says for which dimensions the source is defined and what it returns there. What
happens beyond is stated of the model that wraps.

The equivalence for the whole product is about the call and not about its result: for dimensions up
to the bound it comes back, with a matrix or with `NULL`, whatever the allocator does.

## Main results

* `strassenNextPowerOfTwo_iff` — for which dimensions the loop does its work
* `doubleUntil_one_endless` — for the others it does not end
* `matrixMultiplyStrassen_returns_iff` — which products are answered at all
-/

namespace OvaLib

namespace Matrix

open OvaLib.Graph (DoublesTo Doubled GraphImpl.doubleUntil_eq doubleUntil_endless doublesTo_pow)

/-- The loop for the dimension `n` ends at `p` with all its products in the range of `int`, and `p`
is a power of two that is at least `n`. -/
structure PadsTo (n p : ℕ) : Prop where
  /-- The doublings, all of them in the range of `int`. -/
  loop : DoublesTo n 1 p
  returns : strassenNextPowerOfTwo n = some p
  power : ∃ k, p = 2 ^ k
  le : n ≤ p

/-- **Beyond `2 ^ 30` the loop does not end**, whatever the fuel. -/
theorem doubleUntil_one_endless {n : ℕ} (hn : 2 ^ 30 < n) (fuel : ℕ) :
    doubleUntil fuel 1 n = none := by
  have hone : Doubled 1 := .inr (.inr ⟨0, Nat.zero_le 30, rfl⟩)
  have hreq : (2 : ℤ) ^ 30 < n := by exact_mod_cast hn
  rw [← GraphImpl.doubleUntil_eq]
  exact doubleUntil_endless hreq fuel hone

/-- The loop has one result, whatever the fuel it is given. -/
theorem doubleUntil_unique {n : ℤ} {fuel fuel' : ℕ} {p result result' : ℤ}
    (h : doubleUntil fuel p n = some result) (h' : doubleUntil fuel' p n = some result') :
    result = result' := by
  induction fuel generalizing p fuel' with
  | zero => cases h
  | succ fuel ih =>
    cases fuel' with
    | zero => cases h'
    | succ fuel' =>
      rw [doubleUntil] at h h'
      by_cases hlt : p < n
      · rw [if_pos hlt] at h h'
        exact ih h h'
      · rw [if_neg hlt] at h h'
        exact Option.some.inj (h.symm.trans h')

/-- Up to `2 ^ 30` no product overflows on the way. -/
theorem padsTo_of_le {n : ℕ} (hn : n ≤ 2 ^ 30) : ∃ p, PadsTo n p := by
  have hreq : (n : ℤ) ≤ 2 ^ 30 := by exact_mod_cast hn
  obtain ⟨k, -, -, hle, hk⟩ := doubleUntil_pow (le_refl 30) hreq (Nat.zero_le 30)
    (show 30 - 0 < 64 by omega)
  obtain ⟨result, hloop⟩ := doublesTo_pow hreq (Nat.zero_le 30)
  obtain ⟨fuel, hfuel⟩ := hloop.returns
  rw [GraphImpl.doubleUntil_eq] at hfuel
  obtain rfl := doubleUntil_unique hfuel hk
  refine ⟨2 ^ k, by exact_mod_cast hloop, ?_, ⟨k, rfl⟩, by exact_mod_cast hle⟩
  rw [strassenNextPowerOfTwo, ← pow_zero (2 : ℤ), hk, Option.map_some]
  rfl

/-- **For which dimensions the loop ends without overflow** at a power of two that is large
enough. -/
theorem strassenNextPowerOfTwo_iff (n : ℕ) : (∃ p, PadsTo n p) ↔ n ≤ 2 ^ 30 := by
  constructor
  · rintro ⟨p, hp⟩
    exact_mod_cast hp.loop.required_le (Nat.zero_le 30) rfl
  · exact padsTo_of_le

/-- The dimension `2 ^ 30 + 1`: the loop does not end, whatever the fuel. -/
theorem strassenNextPowerOfTwo_endless :
    2 ^ 30 + 1 ≤ intMax ∧ (∀ fuel, doubleUntil fuel 1 (2 ^ 30 + 1) = none) ∧
      ¬ ∃ p, PadsTo (2 ^ 30 + 1) p := by
  have hendless : ∀ fuel, doubleUntil fuel 1 ((2 ^ 30 + 1 : ℕ) : ℤ) = none :=
    doubleUntil_one_endless (Nat.lt_succ_self _)
  refine ⟨by decide, fun fuel => by exact_mod_cast hendless fuel, ?_⟩
  rintro ⟨p, hp⟩
  have hreturns := hp.returns
  rw [strassenNextPowerOfTwo, hendless] at hreturns
  cases hreturns

/-- **Which products are answered**, with a matrix or with `NULL`: those of dimensions up to
`2 ^ 30`, whatever the allocator does. -/
theorem matrixMultiplyStrassen_returns_iff {R : Type*} [Ring R] {lhs rhs : MatrixImpl R}
    (hdim : lhs.cols = rhs.rows) (al : Allocator) :
    (matrixMultiplyStrassen lhs rhs al).isSome ↔
      lhs.rows ≤ 2 ^ 30 ∧ lhs.cols ≤ 2 ^ 30 ∧ rhs.cols ≤ 2 ^ 30 := by
  rw [matrixMultiplyStrassen, if_neg (not_not.mpr hdim)]
  extract_lets maxDim maxDim₂ maxDim₃
  have hmax : maxDim₃ ≤ 2 ^ 30 ↔ lhs.rows ≤ 2 ^ 30 ∧ lhs.cols ≤ 2 ^ 30 ∧ rhs.cols ≤ 2 ^ 30 := by
    simp only [maxDim₃, maxDim₂, maxDim]
    split_ifs <;> omega
  rw [Option.isSome_map, ← hmax]
  constructor
  · intro hsome
    by_contra hlt
    rw [strassenNextPowerOfTwo, doubleUntil_one_endless (not_le.mp hlt)] at hsome
    cases hsome
  · intro hle
    obtain ⟨p, hp⟩ := padsTo_of_le hle
    rw [hp.returns]
    rfl

end Matrix

end OvaLib
