import OvaLib.Types

/-!
# Counting allocation attempts

The code asks for memory in many places and looks at the answer in few of them. To say of a call
that none of *its* allocations failed, one has to know how many it makes, and that number depends on
the data: a list asks for an array only when its own is full, a queue for a node only when none is
left over. So the number is computed along the failure-free run, by definitions that stand beside
those of the run and mirror its shape (`foldAttempts`, `foldAttemptsM`, `loopAttempts`), and
`Attempts` says that such a number is right: given as many successes the run does what it does with
the allocator that never fails, and leaves the allocator that many attempts further on.

Nothing is said about runs that meet a failure. What they do depends on who looks at the answer, and
how many attempts they make depends on what they did.

## Main results

* `Attempts.foldl`, `Attempts.foldlM`, `Attempts.loop` — the number for a loop from that for a turn
* `SetUp.same_view` — a call whose attempts all succeed gives the answer of the failure-free run
-/

namespace OvaLib

namespace Allocator

variable {a : Allocator} {n m : ℕ}

/-- The next `n` attempts succeed. -/
def Grants (a : Allocator) (n : ℕ) : Prop := ∀ k < n, a.outcome k = true

theorem grants_always (n : ℕ) : always.Grants n := fun _ _ => rfl

theorem grants_zero (a : Allocator) : a.Grants 0 := fun _ hk => absurd hk (Nat.not_lt_zero _)

theorem Grants.left (h : a.Grants (n + m)) : a.Grants n := fun k hk => h k (by omega)

theorem Grants.right (h : a.Grants (n + m)) : (a.skip n).Grants m := fun k hk => by
  rw [skip_outcome]
  exact h _ (by omega)

theorem grants_add (h : a.Grants n) (h' : (a.skip n).Grants m) : a.Grants (n + m) := by
  intro k hk
  by_cases hkn : k < n
  · exact h k hkn
  · have hrest := h' (k - n) (by omega)
    rwa [skip_outcome, Nat.sub_add_cancel (not_lt.mp hkn)] at hrest

/-- The first of the attempts that succeed. -/
theorem Grants.alloc (h : a.Grants (n + 1)) : a.alloc = (true, a.skip 1) :=
  Prod.ext (h 0 (by omega)) rfl

@[simp] theorem skip_zero (a : Allocator) : a.skip 0 = a := rfl

end Allocator

/-- A value that holds the allocator of a run. -/
class Allocating (σ : Type*) where
  withAllocator : σ → Allocator → σ
  with_with : ∀ s a b, withAllocator (withAllocator s a) b = withAllocator s b

open Allocating

variable {σ τ α β : Type*} [Allocating σ] [Allocating τ]

instance : Allocating (σ × β) where
  withAllocator s a := (withAllocator s.1 a, s.2)
  with_with s a b := Prod.ext (with_with s.1 a b) rfl

instance : Allocating (Option σ) where
  withAllocator s a := s.map fun s => withAllocator s a
  with_with s a b := by
    cases s with
    | none => rfl
    | some s => exact congrArg some (with_with s a b)

/-- The value holds the allocator that never fails. -/
def Unfailing (s : σ) : Prop := withAllocator s .always = s

theorem Unfailing.of_some {s : σ} (h : Unfailing (some s)) : Unfailing s := Option.some.inj h

/-- From `s` on, `f` makes `n` attempts, when they all succeed. -/
def Attempts (f : σ → τ) (s : σ) (n : ℕ) : Prop :=
  ∀ a : Allocator, a.Grants n → f (withAllocator s a) = withAllocator (f s) (a.skip n)

variable {f : σ → τ} {s : σ} {n m : ℕ}

namespace Attempts

/-- A run without failures ends without having met one. -/
theorem unfailing (h : Attempts f s n) (hs : Unfailing s) : Unfailing (f s) := by
  have hrun := h .always (Allocator.grants_always n)
  rw [show withAllocator s .always = s from hs] at hrun
  exact hrun.symm

/-- What does not touch the allocator makes no attempt. -/
theorem none_made (h : ∀ a, f (withAllocator s a) = withAllocator (f s) a) : Attempts f s 0 :=
  fun a _ => h a

theorem andThen {υ : Type*} [Allocating υ] {f' : τ → υ} (h : Attempts f s n)
    (h' : Attempts f' (f s) m) : Attempts (fun s => f' (f s)) s (n + m) := by
  intro a ha
  dsimp only
  rw [h a ha.left, h' _ ha.right, Allocator.skip_skip]

/-- `f'` runs where `f` came to an end. -/
theorem bind {υ : Type*} [Allocating υ] {f : σ → Option τ} {f' : τ → Option υ}
    (h : Attempts f s n) (h' : ∀ t, f s = some t → Attempts f' t m) :
    Attempts (fun s => (f s).bind f') s (n + m) := by
  intro a ha
  dsimp only
  rw [h a ha.left]
  cases hs : f s with
  | none => rfl
  | some t =>
    have hrun := h' t hs _ ha.right
    rw [Allocator.skip_skip] at hrun
    exact hrun

end Attempts

/-! ## Setting up -/

/-- With as many successes as it takes to set up the variables, they are those of the failure-free
run. -/
def SetUp (init : Allocator → Option σ) (a : Allocator) (n : ℕ) (s : σ) : Prop :=
  a.Grants n ∧ ∃ s₀, init .always = some s₀ ∧ Unfailing s₀ ∧ s = withAllocator s₀ (a.skip n)

/-- A run that was set up, and whose attempts all succeed, looks like the failure-free run. -/
theorem SetUp.same_view {init : Allocator → Option σ} {a : Allocator} (h : SetUp init a n s)
    {run : σ → Option τ} {cost : σ → ℕ} (hcost : ∀ s, Unfailing s → Attempts run s (cost s))
    (ha : (a.skip n).Grants ((init .always).elim 0 cost)) (view : τ → β)
    (hview : ∀ t b, view (withAllocator t b) = view t) :
    ∃ s₀, init .always = some s₀ ∧ (run s).map view = (run s₀).map view := by
  obtain ⟨-, s₀, hinit, hs₀, rfl⟩ := h
  rw [hinit] at ha
  refine ⟨s₀, hinit, ?_⟩
  rw [hcost s₀ hs₀ _ ha]
  cases run s₀ with
  | none => rfl
  | some t => exact congrArg some (hview t _)

/-! ## Loops -/

/-- The attempts of a loop over a list. -/
def foldAttempts (f : σ → α → σ) (cost : σ → α → ℕ) : List α → σ → ℕ
  | [], _ => 0
  | x :: xs, s => cost s x + foldAttempts f cost xs (f s x)

/-- The attempts of a loop over a list that may end early. -/
def foldAttemptsM (f : σ → α → Option σ) (cost : σ → α → ℕ) : List α → σ → ℕ
  | [], _ => 0
  | x :: xs, s => cost s x + (f s x).elim 0 (foldAttemptsM f cost xs)

/-- The attempts of a loop that takes turns for as long as there is one, and at most `fuel`. -/
def loopAttempts (step : σ → Option σ) (cost : σ → ℕ) : ℕ → σ → ℕ
  | 0, _ => 0
  | fuel + 1, s => cost s + (step s).elim 0 (loopAttempts step cost fuel)

namespace Attempts

theorem foldl {f : σ → α → σ} {cost : σ → α → ℕ}
    (h : ∀ s x, Unfailing s → Attempts (fun s => f s x) s (cost s x)) :
    ∀ (xs : List α) (s : σ), Unfailing s →
      Attempts (fun s => xs.foldl f s) s (foldAttempts f cost xs s) := by
  intro xs
  induction xs with
  | nil => exact fun s _ => none_made fun _ => rfl
  | cons x xs ih =>
    intro s hs
    have hx := h s x hs
    exact hx.andThen (ih _ (hx.unfailing hs))

theorem foldlM {f : σ → α → Option σ} {cost : σ → α → ℕ}
    (h : ∀ s x, Unfailing s → Attempts (fun s => f s x) s (cost s x)) :
    ∀ (xs : List α) (s : σ), Unfailing s →
      Attempts (fun s => xs.foldlM f s) s (foldAttemptsM f cost xs s) := by
  intro xs
  induction xs with
  | nil => exact fun s _ => none_made fun _ => rfl
  | cons x xs ih =>
    intro s hs
    have hx := h s x hs
    simp only [List.foldlM_cons]
    refine hx.bind fun t ht => ?_
    have hone := hx.unfailing hs
    rw [ht] at hone ⊢
    exact ih t hone.of_some

/-- A loop whose last turn is the one that finds nothing to do, and asks for nothing. -/
theorem loop {step : σ → Option σ} {cost : σ → ℕ} {run : ℕ → σ → Option σ}
    (hzero : ∀ s, run 0 s = none)
    (hsucc : ∀ fuel s, run (fuel + 1) s = (step s).elim (some s) (run fuel))
    (h : ∀ s, Unfailing s → Attempts step s (cost s))
    (hlast : ∀ s, Unfailing s → step s = none → cost s = 0) :
    ∀ (fuel : ℕ) (s : σ), Unfailing s → Attempts (run fuel) s (loopAttempts step cost fuel s) := by
  intro fuel
  induction fuel with
  | zero =>
    intro s _
    refine none_made fun a => ?_
    rw [hzero, hzero]
    rfl
  | succ fuel ih =>
    intro s hs a ha
    have hstep := h s hs
    have hturn := hstep a ha.left
    rw [hsucc, hsucc, hturn]
    rw [loopAttempts] at ha ⊢
    cases hs' : step s with
    | none =>
      rw [hlast s hs hs']
      rfl
    | some s' =>
      rw [hs'] at ha
      have hone := hstep.unfailing hs
      rw [hs'] at hone
      have hrest := ih s' hone.of_some _ ha.right
      rw [Allocator.skip_skip] at hrest
      exact hrest

end Attempts

end OvaLib
