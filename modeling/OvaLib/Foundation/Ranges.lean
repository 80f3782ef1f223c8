import Mathlib.Data.List.Basic
import Mathlib.Logic.Equiv.Basic
import Mathlib.Tactic.Common

/-!
# Sorting in place, range by range

A sort that works on ranges of a sequence does two things to it. It moves items about inside of a
range, and it shrinks the set of ranges that are still to be sorted. `Within` is the first, and
`OrderedOutside` says what is left to do: two items stand in order, or one pending range holds them
both. A range is given by its first and its last position.

Which of the pending ranges is taken next makes no difference to the second, but an implementation
with a stack takes the last one, and the ranges on its stack are in descending order of their
positions. `Descending` keeps that, and with it that the pending ranges are disjoint. Splitting a
range around a pivot needs of the partition that nothing in the left part is above the pivot and
nothing in the right part below it; then two items of different parts stand in order.

## Main results

* `within_swap` — a swap stays within every range that has both positions
* `OrderedOutside.split` — splitting a range around a pivot
* `OrderedOutside.pairwise` — no range is left
-/

namespace Foundation

variable {β : Type*} {low high : ℤ} {s t u : List β}

/-! ## Moving items inside of a range -/

/-- The items of `t` are those of `s`, moved inside of the range only. -/
def Within (low high : ℤ) (s t : List β) : Prop :=
  ∀ k : ℕ, ∃ k' : ℕ, t[k]? = s[k']? ∧
    if low ≤ k ∧ (k : ℤ) ≤ high then low ≤ k' ∧ (k' : ℤ) ≤ high else k' = k

theorem Within.refl (low high : ℤ) (s : List β) : Within low high s s := by
  intro k
  refine ⟨k, rfl, ?_⟩
  split
  · next hin => exact hin
  · rfl

theorem Within.trans (h : Within low high s t) (h' : Within low high t u) :
    Within low high s u := by
  intro k
  obtain ⟨k₁, hread₁, hin₁⟩ := h' k
  obtain ⟨k₂, hread₂, hin₂⟩ := h k₁
  refine ⟨k₂, hread₁.trans hread₂, ?_⟩
  by_cases hk : low ≤ k ∧ (k : ℤ) ≤ high
  · rw [if_pos hk] at hin₁ ⊢
    rwa [if_pos hin₁] at hin₂
  · rw [if_neg hk] at hin₁ ⊢
    rwa [hin₁, if_neg hk] at hin₂

theorem Within.mono (h : Within low high s t) {low' high' : ℤ} (hlow : low' ≤ low)
    (hhigh : high ≤ high') : Within low' high' s t := by
  intro k
  obtain ⟨k', hread, hin⟩ := h k
  refine ⟨k', hread, ?_⟩
  by_cases hk : low ≤ k ∧ (k : ℤ) ≤ high
  · rw [if_pos hk] at hin
    rw [if_pos ⟨by omega, by omega⟩]
    exact ⟨by omega, by omega⟩
  · rw [if_neg hk] at hin
    obtain rfl := hin
    split
    · next hk' => exact hk'
    · rfl

/-- An item inside comes from inside. -/
theorem Within.inside (h : Within low high s t) {k : ℕ} (hlow : low ≤ k) (hhigh : (k : ℤ) ≤ high) :
    ∃ k' : ℕ, t[k]? = s[k']? ∧ low ≤ k' ∧ (k' : ℤ) ≤ high := by
  obtain ⟨k', hread, hin⟩ := h k
  rw [if_pos ⟨hlow, hhigh⟩] at hin
  exact ⟨k', hread, hin⟩

/-- Everything outside is as it was. -/
theorem Within.outside (h : Within low high s t) {k : ℕ} (hk : ¬(low ≤ k ∧ (k : ℤ) ≤ high)) :
    t[k]? = s[k]? := by
  obtain ⟨k', hread, hin⟩ := h k
  rw [if_neg hk] at hin
  rw [hread, hin]

/-- **A swap** stays within every range that has both positions. -/
theorem within_swap {i j : ℕ} (hi : low ≤ i ∧ (i : ℤ) ≤ high) (hj : low ≤ j ∧ (j : ℤ) ≤ high)
    (h : ∀ k, t[k]? = s[Equiv.swap i j k]?) : Within low high s t := by
  intro k
  refine ⟨Equiv.swap i j k, h k, ?_⟩
  rw [Equiv.swap_apply_def]
  split
  · next hin => split_ifs <;> assumption
  · next hout =>
    rw [if_neg (by rintro rfl; exact hout hi), if_neg (by rintro rfl; exact hout hj)]

/-! ## What is left to sort -/

variable {le : β → β → Prop} {ranges ranges' : List (ℤ × ℤ)}

/-- Two items stand in order, or some range has both of them. -/
def OrderedOutside (le : β → β → Prop) (ranges : List (ℤ × ℤ)) (s : List β) : Prop :=
  ∀ ⦃i j : ℕ⦄ ⦃x y : β⦄, i < j → s[i]? = some x → s[j]? = some y →
    le x y ∨ ∃ r ∈ ranges, r.1 ≤ i ∧ (j : ℤ) ≤ r.2

/-- The ranges are disjoint, the last of the sequence first. -/
def Descending (ranges : List (ℤ × ℤ)) : Prop := ranges.Pairwise fun r q => q.2 < r.1

/-- One range has everything. -/
theorem orderedOutside_whole (le : β → β → Prop) (s : List β) :
    OrderedOutside le [(0, (s.length : ℤ) - 1)] s := by
  intro i j x y _ _ hy
  have hj := (List.getElem?_eq_some_iff.mp hy).1
  exact .inr ⟨_, List.mem_singleton_self _, by dsimp only; omega, by dsimp only; omega⟩

/-- **No range is left.** -/
theorem OrderedOutside.pairwise (h : OrderedOutside le [] s) : s.Pairwise le := by
  rw [List.pairwise_iff_getElem]
  intro i j hi hj hij
  rcases h hij (List.getElem?_eq_getElem hi) (List.getElem?_eq_getElem hj) with hle | ⟨r, hr, -⟩
  · exact hle
  · exact absurd hr List.not_mem_nil

/-- **Splitting a range around a pivot.** What is pending afterwards are the two parts and the
ranges that were pending before. -/
theorem OrderedOutside.split (htrans : ∀ {x y z}, le x y → le y z → le x z)
    (h : OrderedOutside le ((low, high) :: ranges) s)
    (hdisjoint : Descending ((low, high) :: ranges)) (hmove : Within low high s t) {p : ℤ} {v : β}
    (hbelow : ∀ ⦃k : ℕ⦄ ⦃x⦄, low ≤ k → (k : ℤ) ≤ p → t[k]? = some x → le x v)
    (habove : ∀ ⦃k : ℕ⦄ ⦃x⦄, p ≤ k → (k : ℤ) ≤ high → t[k]? = some x → le v x)
    (hrest : ∀ r ∈ ranges, r ∈ ranges') (hleft : low < p - 1 → (low, p - 1) ∈ ranges')
    (hright : p + 1 < high → (p + 1, high) ∈ ranges') : OrderedOutside le ranges' t := by
  have hafter : ∀ r ∈ ranges, r.2 < low := (List.pairwise_cons.mp hdisjoint).1
  -- before the split: a position of the range and one outside of it
  have hcross : ∀ {i j : ℕ} {x y : β}, i < j → s[i]? = some x → s[j]? = some y →
      (low ≤ i ∧ (i : ℤ) ≤ high ∧ high < j) ∨ ((i : ℤ) < low ∧ low ≤ j ∧ (j : ℤ) ≤ high) →
      le x y := by
    intro i j x y hij hx hy hout
    rcases h hij hx hy with hle | ⟨r, hr, hri, hrj⟩
    · exact hle
    · rcases List.mem_cons.mp hr with rfl | hr
      · dsimp only at hri hrj
        omega
      · have hlt := hafter r hr
        omega
  intro i j x y hij hx hy
  by_cases hi : low ≤ i ∧ (i : ℤ) ≤ high
  · by_cases hj : low ≤ j ∧ (j : ℤ) ≤ high
    · by_cases hip : (i : ℤ) ≤ p
      · by_cases hjp : p ≤ j
        · exact .inl (htrans (hbelow hi.1 hip hx) (habove hjp hj.2 hy))
        · exact .inr ⟨_, hleft (by omega), hi.1, by dsimp only; omega⟩
      · exact .inr ⟨_, hright (by omega), by dsimp only; omega, hj.2⟩
    · obtain ⟨k, hread, hk⟩ := hmove.inside hi.1 hi.2
      rw [hread] at hx
      rw [hmove.outside hj] at hy
      exact .inl (hcross (by omega) hx hy (.inl ⟨hk.1, hk.2, by omega⟩))
  · rw [hmove.outside hi] at hx
    by_cases hj : low ≤ j ∧ (j : ℤ) ≤ high
    · obtain ⟨k, hread, hk⟩ := hmove.inside hj.1 hj.2
      rw [hread] at hy
      exact .inl (hcross (by omega) hx hy (.inr ⟨by omega, hk.1, hk.2⟩))
    · rw [hmove.outside hj] at hy
      refine (h hij hx hy).imp_right ?_
      rintro ⟨r, hr, hri, hrj⟩
      rcases List.mem_cons.mp hr with rfl | hr
      · dsimp only at hri hrj
        omega
      · exact ⟨r, hrest r hr, hri, hrj⟩

end Foundation
