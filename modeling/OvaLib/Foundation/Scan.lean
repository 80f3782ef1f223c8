import Mathlib.Order.Lattice
import Mathlib.Data.List.Basic

/-!
# Scanning for the first smallest candidate

A recurring loop: walk the indices `0, 1, …, n - 1` once, keep the best candidate seen so far, and
replace it only by a strictly better one. Candidates that do not qualify are skipped, and the search
starts from a bound that a first candidate already has to beat.

`scanMin` is that loop, with the skipping folded into an optional score. Ties go to the smallest
index because the comparison is strict, so a caller's executable run picks the index its own loop
would pick.

The score may depend on anything, and a scan for the largest candidate is one for the smallest of
the negated scores.

## Main results

* `scanMin_eq_some` — the index found qualifies, beats the bound, and no candidate beats it
* `scanMin_first` — every candidate before it is worse
* `scanMin_eq_none` — nothing qualifying beats the bound
-/

namespace Foundation

variable {α : Type*} [LinearOrder α]

/-- The state of the scan after index `n - 1`: the best score so far and the index holding it. -/
def scanMinFrom (score : ℕ → Option α) (bound : α) : ℕ → α × Option ℕ
  | 0 => (bound, none)
  | n + 1 =>
    let best := scanMinFrom score bound n
    match score n with
    | none => best
    | some v => if v < best.1 then (v, some n) else best

/-- The first index below `n` whose score is smallest among those below `bound`. -/
def scanMin (score : ℕ → Option α) (bound : α) (n : ℕ) : Option ℕ :=
  (scanMinFrom score bound n).2

theorem scanMinFrom_succ_none {score : ℕ → Option α} {n : ℕ} (h : score n = none) (bound : α) :
    scanMinFrom score bound (n + 1) = scanMinFrom score bound n := by
  rw [scanMinFrom, h]

theorem scanMinFrom_succ_some {score : ℕ → Option α} {n : ℕ} {v : α} (h : score n = some v)
    (bound : α) : scanMinFrom score bound (n + 1) =
      if v < (scanMinFrom score bound n).1 then (v, some n) else scanMinFrom score bound n := by
  rw [scanMinFrom, h]

/-- What the scan knows after each index. -/
theorem scanMinFrom_spec (score : ℕ → Option α) (bound : α) (n : ℕ) :
    (∀ k < n, ∀ w, score k = some w → (scanMinFrom score bound n).1 ≤ w) ∧
      (match (scanMinFrom score bound n).2 with
        | none => (scanMinFrom score bound n).1 = bound
        | some i => i < n ∧ score i = some (scanMinFrom score bound n).1 ∧
            (scanMinFrom score bound n).1 < bound) := by
  induction n with
  | zero => exact ⟨fun k hk => absurd hk (Nat.not_lt_zero k), rfl⟩
  | succ n ih =>
    obtain ⟨hle, hpick⟩ := ih
    have hbound : (scanMinFrom score bound n).1 ≤ bound := by
      cases hb : (scanMinFrom score bound n).2 with
      | none => rw [hb] at hpick; exact le_of_eq hpick
      | some i => rw [hb] at hpick; exact le_of_lt hpick.2.2
    cases hs : score n with
    | none =>
      simp only [scanMinFrom, hs]
      refine ⟨fun k hk w hw => ?_, ?_⟩
      · rcases Nat.lt_succ_iff_lt_or_eq.mp hk with h | rfl
        · exact hle k h w hw
        · rw [hs] at hw; exact absurd hw (by simp)
      · cases hb : (scanMinFrom score bound n).2 with
        | none => rw [hb] at hpick; exact hpick
        | some i => rw [hb] at hpick; exact ⟨Nat.lt_succ_of_lt hpick.1, hpick.2⟩
    | some v =>
      by_cases hv : v < (scanMinFrom score bound n).1
      · simp only [scanMinFrom, hs, hv, if_true]
        refine ⟨fun k hk w hw => ?_, Nat.lt_succ_self n, trivial, lt_of_lt_of_le hv hbound⟩
        rcases Nat.lt_succ_iff_lt_or_eq.mp hk with h | rfl
        · exact le_of_lt (lt_of_lt_of_le hv (hle k h w hw))
        · rw [hs] at hw; exact le_of_eq (Option.some.inj hw)
      · simp only [scanMinFrom, hs, hv, if_false]
        refine ⟨fun k hk w hw => ?_, ?_⟩
        · rcases Nat.lt_succ_iff_lt_or_eq.mp hk with h | rfl
          · exact hle k h w hw
          · rw [hs] at hw; exact Option.some.inj hw ▸ not_lt.mp hv
        · cases hb : (scanMinFrom score bound n).2 with
          | none => rw [hb] at hpick; exact hpick
          | some i => rw [hb] at hpick; exact ⟨Nat.lt_succ_of_lt hpick.1, hpick.2⟩

/-- **What an index found by the scan satisfies.** -/
theorem scanMin_eq_some {score : ℕ → Option α} {bound : α} {n i : ℕ}
    (h : scanMin score bound n = some i) :
    i < n ∧ ∃ v, score i = some v ∧ v < bound ∧ ∀ k < n, ∀ w, score k = some w → v ≤ w := by
  obtain ⟨hle, hpick⟩ := scanMinFrom_spec score bound n
  rw [scanMin] at h
  rw [h] at hpick
  exact ⟨hpick.1, _, hpick.2.1, hpick.2.2, hle⟩

/-- **Ties go to the smallest index**: a candidate before the index found is worse. -/
theorem scanMin_first {score : ℕ → Option α} {bound : α} {n i : ℕ}
    (h : scanMin score bound n = some i) {v : α} (hv : score i = some v) :
    ∀ k < i, ∀ w, score k = some w → v < w := by
  rw [scanMin] at h
  induction n with
  | zero => cases h
  | succ n ih =>
    rw [scanMinFrom] at h
    split at h
    · exact ih h
    · next v' hv' =>
      split at h
      · next hlt =>
        obtain rfl := Option.some.inj h
        obtain rfl := Option.some.inj (hv'.symm.trans hv)
        exact fun k hk w hw => hlt.trans_le ((scanMinFrom_spec score bound n).1 k hk w hw)
      · exact ih h

/-- **What a scan that found nothing says.** -/
theorem scanMin_eq_none {score : ℕ → Option α} {bound : α} {n : ℕ}
    (h : scanMin score bound n = none) : ∀ k < n, ∀ w, score k = some w → bound ≤ w := by
  obtain ⟨hle, hpick⟩ := scanMinFrom_spec score bound n
  rw [scanMin] at h
  rw [h] at hpick
  exact fun k hk w hw => hpick ▸ hle k hk w hw

end Foundation
