import Mathlib.Algebra.Order.Ring.Int
import Mathlib.Tactic.Common
import Mathlib.Tactic.NormNum

/-!
# Common types

`types.h` and the two conventions the models share.

* A `void *` is an `Option`: `none` is `NULL`.
* An operation that allocates takes an `Allocator`, the outcomes of the allocation attempts still to
  come, and hands back what is left of it. `Allocator.always` is the allocator that never fails; it
  is its own remainder, so a run over it needs no bookkeeping.

An allocator is a sequence of outcomes and nothing else: the same attempt may fail for a small
request and succeed for a large one. So what is proved for every allocator holds of every run with a
real one.

Integers are mathematical ones. Where a value is computed in an `int` and may leave its range,
`int32` wraps it around, which is how signed overflow comes out on the platforms in question though
the language leaves it undefined. A theorem that excludes overflow says so by `InInt`, of the value
that was not wrapped.
-/

namespace OvaLib

/-- `ova_error_code`. -/
inductive ErrorCode
  | success
  | errorMemory
  | errorInvalidArg
  | errorIndexOutOfBounds
  | errorEmpty
  | errorFull
  | errorNotFound
  deriving DecidableEq, Repr

/-- The outcomes of the allocation attempts still to come: `true` is a success. -/
structure Allocator where
  /-- The outcome of each attempt, counted from the next. -/
  outcome : ℕ → Bool

namespace Allocator

/-- One attempt: its outcome, and the allocator after it. -/
def alloc (a : Allocator) : Bool × Allocator := (a.outcome 0, ⟨fun n => a.outcome (n + 1)⟩)

/-- The allocator after some attempts. -/
def skip (a : Allocator) (n : ℕ) : Allocator := ⟨fun k => a.outcome (k + n)⟩

/-- The allocator that never fails. -/
def always : Allocator := ⟨fun _ => true⟩

@[simp] theorem alloc_always : always.alloc = (true, always) := rfl

theorem skip_outcome (a : Allocator) (n k : ℕ) : (a.skip n).outcome k = a.outcome (k + n) := rfl

@[simp] theorem skip_always (n : ℕ) : always.skip n = always := rfl

theorem skip_skip (a : Allocator) (n m : ℕ) : (a.skip n).skip m = a.skip (n + m) := by
  refine congrArg mk (funext fun k => ?_)
  rw [skip_outcome, Nat.add_assoc, Nat.add_comm m n]

/-- `n` attempts were made, and all of them succeeded. -/
def Passed (a : Allocator) (n : ℕ) (a' : Allocator) : Prop :=
  (∀ k < n, a.outcome k = true) ∧ a' = a.skip n

theorem passed_alloc {a : Allocator} (h : a.alloc.1 = true) : Passed a 1 a.alloc.2 :=
  ⟨fun k hk => by rwa [Nat.lt_one_iff.mp hk], rfl⟩

theorem Passed.trans {a a' a'' : Allocator} {n m : ℕ} (h : Passed a n a') (h' : Passed a' m a'') :
    Passed a (n + m) a'' := by
  obtain ⟨hn, rfl⟩ := h
  obtain ⟨hm, rfl⟩ := h'
  refine ⟨fun k hk => ?_, skip_skip a n m⟩
  by_cases hkn : k < n
  · exact hn k hkn
  · have hrest := hm (k - n) (by omega)
    rwa [skip_outcome, Nat.sub_add_cancel (not_lt.mp hkn)] at hrest

end Allocator

/-! ## Integers -/

/-- `INT_MAX`. -/
def intMax : ℕ := 2147483647

/-- The `int` a computed value is kept as. -/
def int32 (n : ℤ) : ℤ := n.bmod (2 ^ 32)

theorem int32_eq {n : ℤ} (hlow : -2147483648 ≤ n) (hhigh : n < 2147483648) : int32 n = n := by
  rw [int32]
  rw [Int.bmod_def]
  omega

theorem int32_le (n : ℤ) : int32 n ≤ intMax := by
  rw [int32, intMax]
  rw [Int.bmod_def]
  omega

theorem int32_natCast {n : ℕ} (hn : n ≤ intMax) : int32 n = n := by
  rw [intMax] at hn
  exact int32_eq (by omega) (by omega)

@[simp] theorem int32_zero : int32 0 = 0 := by decide

/-- A counter that is kept in an `int` may be reduced after each step or once at the end. -/
theorem int32_int32_add (n m : ℤ) : int32 (int32 n + m) = int32 (n + m) :=
  Int.bmod_add_bmod

theorem int32_int32_sub (n m : ℤ) : int32 (int32 n - m) = int32 (n - m) := by
  rw [sub_eq_add_neg, sub_eq_add_neg, int32_int32_add]

theorem intMax_cast : ((intMax : ℕ) : ℤ) = 2147483647 := rfl

/-- The value is one of an `int`. -/
def InInt (x : ℤ) : Prop := -2147483648 ≤ x ∧ x ≤ intMax

theorem inInt_of_nonneg {x : ℤ} (hlow : -1 ≤ x) (hhigh : x ≤ intMax) : InInt x :=
  ⟨by omega, hhigh⟩

theorem InInt.int32_eq {x : ℤ} (h : InInt x) : int32 x = x := by
  obtain ⟨hlow, hhigh⟩ := h
  rw [intMax_cast] at hhigh
  exact OvaLib.int32_eq hlow (by omega)

/-! ## Capacities

The two loops by which the containers of the library grow. -/

/-- `while (p < n) p *= 2`, in `int`. -/
def doubleUntil : ℕ → ℤ → ℤ → Option ℤ
  | 0, _, _ => none
  | fuel + 1, p, n => if p < n then doubleUntil fuel (int32 (p * 2)) n else some p

/-- The doubling loop ends at a power of two: no product overflows on the way to `2 ^ b`. -/
theorem doubleUntil_pow {b : ℕ} (hb : b ≤ 30) {n : ℤ} (hn : n ≤ 2 ^ b) :
    ∀ {fuel k : ℕ}, k ≤ b → b - k < fuel →
      ∃ j, k ≤ j ∧ j ≤ b ∧ n ≤ 2 ^ j ∧ doubleUntil fuel (2 ^ k) n = some (2 ^ j) := by
  intro fuel
  induction fuel with
  | zero => intro k _ hfuel; omega
  | succ fuel ih =>
    intro k hk hfuel
    rw [doubleUntil]
    split
    · next hlt =>
      have hne : k ≠ b := by
        rintro rfl
        omega
      have hpow : ((2 : ℤ) ^ k) * 2 = 2 ^ (k + 1) := (pow_succ 2 k).symm
      have hle : (2 : ℤ) ^ (k + 1) ≤ 2 ^ 30 := pow_le_pow_right₀ (by norm_num) (by omega)
      have hpos : (0 : ℤ) < 2 ^ (k + 1) := pow_pos (by norm_num) _
      rw [hpow, int32_eq (by omega) (by omega)]
      obtain ⟨j, hkj, hjb, hnj, hj⟩ := @ih (k + 1) (by omega) (by omega)
      exact ⟨j, by omega, hjb, hnj, hj⟩
    · next hge => exact ⟨k, Nat.le_refl _, hk, by omega, rfl⟩

/-- `safe_double_capacity`, of `capacity_utils.h`. -/
def safeDoubleCapacity (currentCapacity : ℕ) : ℕ :=
  if currentCapacity > intMax / 2 then intMax else currentCapacity * 2

end OvaLib
