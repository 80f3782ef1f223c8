import Mathlib.Data.Fintype.Pigeonhole
import Mathlib.Order.Monotone.Basic

/-!
# Deterministic runs

A system that steps from state to state until it stops. Its run comes back to a state and then goes
on forever, or it ends: for the latter it suffices that a value which depends on finitely many
possible keys goes up with every step from some point on.

Before that point the value may do as it likes. From there on each state has a value above those
before it, so that no key comes twice, and there are only finitely many keys. An invariant of the
states may be used, as the value may depend on the key for states that have it only.

## Main results

* `ends_of_increasing` — a run with such a value ends
* `never_ends_of_return` — a run that comes back does not
-/

namespace Foundation

variable {σ κ α : Type*} (step : σ → Option σ)

/-- The state after `n` steps, if the run does not stop before. -/
def stepsFrom : ℕ → σ → Option σ
  | 0, s => some s
  | n + 1, s => (step s).bind (stepsFrom n)

@[simp] theorem stepsFrom_zero (s : σ) : stepsFrom step 0 s = some s := rfl

theorem stepsFrom_succ (n : ℕ) (s : σ) :
    stepsFrom step (n + 1) s = (step s).bind (stepsFrom step n) := rfl

theorem stepsFrom_add (n m : ℕ) (s : σ) :
    stepsFrom step (n + m) s = (stepsFrom step n s).bind (stepsFrom step m) := by
  induction n generalizing s with
  | zero => rw [Nat.zero_add, stepsFrom_zero, Option.bind_some]
  | succ n ih =>
    rw [Nat.succ_add, stepsFrom_succ, stepsFrom_succ, Option.bind_assoc]
    exact congrArg _ (funext ih)

/-- The last step apart. -/
theorem stepsFrom_succ' (n : ℕ) (s : σ) :
    stepsFrom step (n + 1) s = (stepsFrom step n s).bind step := by
  rw [stepsFrom_add]
  congr 1
  funext t
  exact Option.bind_fun_some (step t)

variable {step}

/-- A property that each step keeps holds along the run. -/
theorem stepsFrom_induction {P : σ → Prop} (hstep : ∀ s s', P s → step s = some s' → P s')
    {n : ℕ} {s s' : σ} (hs : P s) (h : stepsFrom step n s = some s') : P s' := by
  induction n generalizing s with
  | zero =>
    obtain rfl := Option.some.inj h
    exact hs
  | succ n ih =>
    obtain ⟨t, ht, hrest⟩ := Option.bind_eq_some_iff.mp h
    exact ih (hstep s t hs ht) hrest

theorem stepsFrom_none_of_le {n m : ℕ} (hnm : n ≤ m) {s : σ} (h : stepsFrom step n s = none) :
    stepsFrom step m s = none := by
  obtain ⟨k, rfl⟩ := Nat.exists_eq_add_of_le hnm
  rw [stepsFrom_add, h, Option.bind_none]

/-- **A run that comes back to where it started does not end.** -/
theorem never_ends_of_return {n : ℕ} {s : σ} (h : stepsFrom step (n + 1) s = some s) (k : ℕ) :
    stepsFrom step k s ≠ none := by
  -- as many rounds as there are steps are not too few
  have hrounds : ∀ j, stepsFrom step (j * (n + 1)) s = some s := by
    intro j
    induction j with
    | zero => rw [Nat.zero_mul, stepsFrom_zero]
    | succ j ih => rw [Nat.succ_mul, stepsFrom_add, ih, Option.bind_some, h]
  intro hnone
  have hlater := stepsFrom_none_of_le (Nat.le_mul_of_pos_right k n.succ_pos) hnone
  rw [hrounds k] at hlater
  exact absurd hlater (by simp)

/-- **A run with an increasing value ends.** The value goes up with every step from the `N`-th on,
and it is a function of a key with finitely many values. -/
theorem ends_of_increasing [Finite κ] [Preorder α] {P : σ → Prop} (key : σ → κ) (value : σ → α)
    (hstep : ∀ s s', P s → step s = some s' → P s')
    (hkey : ∀ s s', P s → P s' → key s = key s' → value s = value s') {s : σ} (hs : P s) {N : ℕ}
    (hup : ∀ n ≥ N, ∀ t t', stepsFrom step n s = some t → step t = some t' → value t < value t') :
    ∃ n, stepsFrom step n s = none := by
  by_contra hall
  have hsome : ∀ n, ∃ t, stepsFrom step n s = some t := fun n =>
    Option.ne_none_iff_exists'.mp (not_exists.mp hall n)
  choose state hstate using hsome
  have hmono : StrictMono fun n => value (state (N + n)) := by
    refine strictMono_nat_of_lt_succ fun n => ?_
    have hnext : step (state (N + n)) = some (state (N + (n + 1))) := by
      have hlater := hstate (N + n + 1)
      rwa [stepsFrom_succ', hstate, Option.bind_some] at hlater
    exact hup (N + n) (Nat.le_add_right N n) _ _ (hstate _) hnext
  obtain ⟨n, m, hne, hsame⟩ := Finite.exists_ne_map_eq_of_infinite fun n => key (state (N + n))
  have hP : ∀ n, P (state n) := fun n => stepsFrom_induction hstep hs (hstate n)
  exact hne (hmono.injective (hkey _ _ (hP _) (hP _) hsame))

end Foundation
