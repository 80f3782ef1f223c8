import Mathlib.Data.Int.Order.Basic
import Mathlib.Logic.Function.Basic
import Mathlib.Tactic.Common

/-!
# Circular buffers

A sequence kept in the slots of a buffer from a front slot on, going round at the end of the buffer.
The buffer is a function of the slot.

Slots and capacities are integers, as a program may compute them with a sign, and `slot` is what a
remainder gives for an index that is not negative. The four edits change one slot each, and what
keeps the other elements in place is that no two indices below the capacity have one slot. Copying
unrolls the buffer: the elements up to the end of the buffer come first, then those that go on at
its beginning, or all of them at once when there are none of the latter.

Nothing is said about the slots that are not in use.

## Main results

* `Circular.pushBack`, `Circular.pushFront`, `Circular.popFront`, `Circular.popBack` — one element
  more or less at either end
* `Circular.copy_once`, `Circular.copy_twice` — the buffer copied to the beginning of another one,
  in the one or two pieces it consists of
-/

namespace Foundation

variable {β : Type*}

/-- The slot of the element with index `i`. -/
def slot (cap front i : ℤ) : ℤ := if front + i < cap then front + i else front + i - cap

theorem tmod_eq_slot {cap front i : ℤ} (hlow : 0 ≤ front + i) (hhigh : front + i < 2 * cap) :
    (front + i).tmod cap = slot cap front i := by
  rw [Int.tmod_eq_emod_of_nonneg hlow]
  rw [slot]
  split
  · next hlt => exact Int.emod_eq_of_lt hlow hlt
  · next hge =>
    rw [← Int.sub_emod_right]
    exact Int.emod_eq_of_lt (by omega) (by omega)

/-- The buffer holds the sequence `s` from its front slot on. -/
structure Circular (cap front : ℤ) (buffer : ℤ → β) (s : List β) : Prop where
  front_nonneg : 0 ≤ front
  front_lt : front < cap
  length_le : s.length ≤ cap
  get : ∀ i (h : i < s.length), buffer (slot cap front i) = s[i]

namespace Circular

variable {cap front : ℤ} {buffer : ℤ → β} {s : List β}

theorem slot_inj (h : Circular cap front buffer s) {i j : ℤ} (hi : 0 ≤ i ∧ i < cap)
    (hj : 0 ≤ j ∧ j < cap) (heq : slot cap front i = slot cap front j) : i = j := by
  have hlow := h.front_nonneg
  have hhigh := h.front_lt
  simp only [slot] at heq
  split at heq <;> split at heq <;> omega

theorem slot_nonneg (h : Circular cap front buffer s) {i : ℤ} (hi : 0 ≤ i) :
    0 ≤ slot cap front i := by
  have hlow := h.front_nonneg
  rw [slot]
  split <;> omega

theorem slot_lt (h : Circular cap front buffer s) {i : ℤ} (hi : i < cap) :
    slot cap front i < cap := by
  have hhigh := h.front_lt
  rw [slot]
  split <;> omega

theorem slot_zero (h : Circular cap front buffer s) : slot cap front 0 = front := by
  have hhigh := h.front_lt
  rw [slot]
  split <;> omega

theorem pushBack (h : Circular cap front buffer s) (hroom : s.length < cap) (x : β) :
    Circular cap front (Function.update buffer (slot cap front s.length) x) (s ++ [x]) where
  front_nonneg := h.front_nonneg
  front_lt := h.front_lt
  length_le := by
    rw [List.length_append, List.length_singleton]
    push_cast
    omega
  get := fun i hi => by
    rw [List.length_append, List.length_singleton] at hi
    by_cases hlast : i = s.length
    · subst hlast
      simp
    · have hlt : i < s.length := by omega
      rw [Function.update_of_ne, h.get i hlt, List.getElem_append_left hlt]
      intro heq
      have heq := h.slot_inj ⟨by omega, by omega⟩ ⟨by omega, by omega⟩ heq
      omega

theorem pushFront (h : Circular cap front buffer s) (hroom : s.length < cap) (x : β) :
    Circular cap (slot cap front (cap - 1))
      (Function.update buffer (slot cap front (cap - 1)) x) (x :: s) where
  front_nonneg := h.slot_nonneg (by have hlow := h.front_nonneg; have hhigh := h.front_lt; omega)
  front_lt := h.slot_lt (by omega)
  length_le := by
    rw [List.length_cons]
    push_cast
    omega
  get := fun i hi => by
    rw [List.length_cons] at hi
    have hlow := h.front_nonneg
    have hhigh := h.front_lt
    cases i with
    | zero =>
      have hzero : slot cap (slot cap front (cap - 1)) (0 : ℕ) = slot cap front (cap - 1) := by
        simp only [slot]
        split <;> split <;> omega
      rw [hzero, Function.update_self]
      rfl
    | succ i =>
      have hshift : slot cap (slot cap front (cap - 1)) (i + 1 : ℕ) = slot cap front i := by
        simp only [slot]
        push_cast
        split <;> split <;> split <;> omega
      rw [hshift, Function.update_of_ne, h.get i (by omega)]
      · rfl
      · intro heq
        have heq := h.slot_inj ⟨by omega, by omega⟩ ⟨by omega, by omega⟩ heq
        omega

theorem popFront {x y : β} (h : Circular cap front buffer (x :: s)) :
    buffer front = x ∧ Circular cap (slot cap front 1) (Function.update buffer front y) s := by
  have hlow := h.front_nonneg
  have hhigh := h.front_lt
  have hlen := h.length_le
  rw [List.length_cons] at hlen
  push_cast at hlen
  have hfirst := h.get 0 (by simp)
  rw [Int.natCast_zero, h.slot_zero] at hfirst
  refine ⟨hfirst, ?_, ?_, by omega, fun i hi => ?_⟩
  · rw [slot]
    split <;> omega
  · rw [slot]
    split <;> omega
  · have hshift : slot cap (slot cap front 1) i = slot cap front (i + 1 : ℕ) := by
      simp only [slot]
      push_cast
      split <;> split <;> split <;> omega
    rw [hshift, Function.update_of_ne, h.get (i + 1) (by simpa using hi)]
    · rfl
    · intro heq
      have heq := h.slot_inj (j := 0) ⟨by omega, by push_cast; omega⟩ ⟨by omega, by omega⟩
        (heq.trans h.slot_zero.symm)
      omega

theorem popBack {x y : β} (h : Circular cap front buffer (s ++ [x])) :
    buffer (slot cap front s.length) = x ∧
      Circular cap front (Function.update buffer (slot cap front s.length) y) s := by
  have hlen := h.length_le
  rw [List.length_append, List.length_singleton] at hlen
  push_cast at hlen
  have hlast := h.get s.length (by simp)
  refine ⟨by simpa using hlast, h.front_nonneg, h.front_lt, by omega, fun i hi => ?_⟩
  have hget := h.get i (by simp; omega)
  rw [Function.update_of_ne, hget, List.getElem_append_left hi]
  intro heq
  have heq := h.slot_inj ⟨by omega, by omega⟩ ⟨by omega, by omega⟩ heq
  omega

/-! ## Copying -/

variable {cap' : ℤ} {buffer' : ℤ → β}

/-- The sequence does not go round, and is copied in one piece. -/
theorem copy_once (h : Circular cap front buffer s) (hcap : 0 < cap') (hroom : s.length ≤ cap')
    (hone : s.length ≤ cap - front)
    (hcopy : ∀ i, 0 ≤ i → i < (s.length : ℤ) → buffer' i = buffer (front + i)) :
    Circular cap' 0 buffer' s where
  front_nonneg := le_refl _
  front_lt := hcap
  length_le := hroom
  get := fun i hi => by
    have hslot : slot cap' 0 i = i := by
      rw [slot]
      split <;> omega
    have hsrc : slot cap front i = front + i := by
      rw [slot]
      split <;> omega
    rw [hslot, hcopy i (by omega) (by omega), ← hsrc]
    exact h.get i hi

/-- The sequence goes round, and is copied in two pieces. -/
theorem copy_twice (h : Circular cap front buffer s) (hcap : 0 < cap') (hroom : s.length ≤ cap')
    (hhead : ∀ i, 0 ≤ i → i < cap - front → buffer' i = buffer (front + i))
    (htail : ∀ i, cap - front ≤ i → i < (s.length : ℤ) → buffer' i = buffer (i - (cap - front))) :
    Circular cap' 0 buffer' s where
  front_nonneg := le_refl _
  front_lt := hcap
  length_le := hroom
  get := fun i hi => by
    have hslot : slot cap' 0 i = i := by
      rw [slot]
      split <;> omega
    rw [hslot, ← h.get i hi]
    rw [slot]
    split
    · next hlt => exact hhead i (by omega) (by omega)
    · next hge =>
      rw [htail i (by omega) (by omega)]
      congr 1
      omega

end Circular

end Foundation
