import Mathlib.Data.Int.Order.Basic
import Mathlib.Data.Quot
import Mathlib.Order.Basic
import Mathlib.Order.Lattice

/-!
# Three-way comparators

A comparator returns a negative number, zero or a positive number. `IsComparator` is the law a
sorted container relies on: the two argument orders give opposite signs, and "at most" is
transitive. Such a comparator is a total preorder, and comparing as zero is an equivalence; a
container keyed by it cannot tell equivalent keys apart.

The classes of that equivalence are the keys of the finite map or the members of the set that a
container stands for. Two keys in one class may be different values, and an implementation may keep
either of them.

Not every user of a comparator asks both ways round. A merge only asks whether one item is at most
another, and for it `IsTotalComparator` is enough, which a comparator satisfies that returns -1 for
everything that is not greater.

## Main results

* `IsComparator.lt_of_lt_of_le`, `IsComparator.lt_of_le_of_lt` — transitivity with a strict step
* `IsComparator.keyClass_eq_iff` — keys are in the same class when they compare as zero
* `LeastOf.tied`, `LeastOf.concat` — least items of a list, item by item
-/

namespace Foundation

/-- The comparator is a total preorder. -/
structure IsComparator {κ : Type*} (cmp : κ → κ → ℤ) : Prop where
  neg_iff : ∀ a b, cmp a b < 0 ↔ 0 < cmp b a
  le_trans : ∀ {a b c}, cmp a b ≤ 0 → cmp b c ≤ 0 → cmp a c ≤ 0

namespace IsComparator

variable {κ : Type*} {cmp : κ → κ → ℤ} (h : IsComparator cmp) {a b c : κ}
include h

theorem self (a : κ) : cmp a a = 0 := by
  have := h.neg_iff a a
  omega

theorem eq_symm (hab : cmp a b = 0) : cmp b a = 0 := by
  have h₁ := h.neg_iff a b
  have h₂ := h.neg_iff b a
  omega

theorem le_of_nonneg (hab : 0 ≤ cmp a b) : cmp b a ≤ 0 := by
  have h₁ := h.neg_iff a b
  omega

theorem nonneg_of_le (hab : cmp a b ≤ 0) : 0 ≤ cmp b a := by
  have h₂ := h.neg_iff b a
  omega

theorem lt_of_lt_of_le (hab : cmp a b < 0) (hbc : cmp b c ≤ 0) : cmp a c < 0 := by
  by_contra hac
  have hba := h.le_trans hbc (h.le_of_nonneg (not_lt.mp hac))
  have := (h.neg_iff a b).mp hab
  omega

theorem lt_of_le_of_lt (hab : cmp a b ≤ 0) (hbc : cmp b c < 0) : cmp a c < 0 := by
  by_contra hac
  have hcb := h.le_trans (h.le_of_nonneg (not_lt.mp hac)) hab
  have := (h.neg_iff b c).mp hbc
  omega

theorem lt_trans (hab : cmp a b < 0) (hbc : cmp b c < 0) : cmp a c < 0 :=
  h.lt_of_lt_of_le hab hbc.le

/-- The comparator the other way round. -/
theorem flip : IsComparator fun a b => cmp b a where
  neg_iff a b := h.neg_iff b a
  le_trans hab hbc := h.le_trans hbc hab

theorem equivalence : Equivalence fun a b => cmp a b = 0 where
  refl := h.self
  symm := h.eq_symm
  trans := fun {a b c} hab hbc => by
    have hle := h.le_trans hab.le hbc.le
    have hge := h.nonneg_of_le (h.le_trans (h.eq_symm hbc).le (h.eq_symm hab).le)
    omega

/-- Keys that compare as zero. -/
def setoid : Setoid κ := ⟨_, h.equivalence⟩

/-- A key, as far as the comparator tells. -/
def KeyClass : Type _ := Quotient h.setoid

/-- The class of a key. -/
def keyClass (a : κ) : h.KeyClass := Quotient.mk h.setoid a

theorem keyClass_eq_iff : h.keyClass a = h.keyClass b ↔ cmp a b = 0 :=
  Quotient.eq (r := h.setoid)

theorem exists_keyClass (c : h.KeyClass) : ∃ a, h.keyClass a = c := Quotient.exists_rep c

end IsComparator

/-- "At most" is a total preorder. The two argument orders need not give opposite signs. -/
structure IsTotalComparator {κ : Type*} (cmp : κ → κ → ℤ) : Prop where
  total : ∀ a b, cmp a b ≤ 0 ∨ cmp b a ≤ 0
  le_trans : ∀ {a b c}, cmp a b ≤ 0 → cmp b c ≤ 0 → cmp a c ≤ 0

theorem IsTotalComparator.le_of_pos {κ : Type*} {cmp : κ → κ → ℤ} (h : IsTotalComparator cmp)
    {a b : κ} (hab : 0 < cmp a b) : cmp b a ≤ 0 :=
  (h.total a b).resolve_left (not_le.mpr hab)

theorem IsComparator.isTotalComparator {κ : Type*} {cmp : κ → κ → ℤ} (h : IsComparator cmp) :
    IsTotalComparator cmp where
  total a b := (le_or_gt (cmp a b) 0).imp_right fun hab => h.le_of_nonneg hab.le
  le_trans := h.le_trans

/-- A comparator whose signs are the order of some key. -/
theorem isComparator_of_key {κ β : Type*} [LinearOrder β] {cmp : κ → κ → ℤ} (key : κ → β)
    (hneg : ∀ a b, cmp a b < 0 ↔ key a < key b) (hpos : ∀ a b, 0 < cmp a b ↔ key b < key a) :
    IsComparator cmp where
  neg_iff a b := (hneg a b).trans (hpos b a).symm
  le_trans {a b c} hab hbc := by
    rw [← not_lt, hpos, not_lt] at *
    exact le_trans hab hbc

/-! ## A least item

The least items of a list are those that a scan may end with, whichever of them it prefers. -/

/-- An item of the list, and none is below it. -/
def LeastOf {κ : Type*} (cmp : κ → κ → ℤ) (x : κ) (s : List κ) : Prop :=
  x ∈ s ∧ ∀ y ∈ s, cmp x y ≤ 0

namespace LeastOf

variable {κ : Type*} {cmp : κ → κ → ℤ} {x y : κ} {s : List κ}

theorem singleton (h : IsComparator cmp) (x : κ) : LeastOf cmp x [x] :=
  ⟨List.mem_singleton_self x, fun _ hy => List.mem_singleton.mp hy ▸ (h.self x).le⟩

/-- Two least items are tied. -/
theorem tied (h : IsComparator cmp) (hx : LeastOf cmp x s) (hy : LeastOf cmp y s) :
    cmp x y = 0 := by
  have hle := hx.2 y hy.1
  have hge := h.nonneg_of_le (hy.2 x hx.1)
  omega

/-- One more item, which takes the place of the least if it is below it. -/
theorem concat (h : IsComparator cmp) (hx : LeastOf cmp x s) (y : κ) :
    LeastOf cmp (if cmp y x < 0 then y else x) (s ++ [y]) := by
  split
  · next hlt =>
    refine ⟨List.mem_concat_self, fun z hz => ?_⟩
    rcases List.mem_append.mp hz with hz | hz
    · exact h.le_trans hlt.le (hx.2 z hz)
    · exact List.mem_singleton.mp hz ▸ (h.self y).le
  · next hge =>
    refine ⟨List.mem_append_left _ hx.1, fun z hz => ?_⟩
    rcases List.mem_append.mp hz with hz | hz
    · exact hx.2 z hz
    · exact List.mem_singleton.mp hz ▸ h.le_of_nonneg (not_lt.mp hge)

/-- An item that is not below another is not missed. -/
theorem cons (h : IsComparator cmp) (hx : LeastOf cmp x s) (hy : y ∈ s) {z : κ}
    (hyz : cmp y z ≤ 0) : LeastOf cmp x (z :: s) :=
  ⟨List.mem_cons_of_mem z hx.1, List.forall_mem_cons.mpr ⟨h.le_trans (hx.2 y hy) hyz, hx.2⟩⟩

/-- Only the items count. -/
theorem congr {t : List κ} (hx : LeastOf cmp x s) (hst : ∀ y, y ∈ s ↔ y ∈ t) : LeastOf cmp x t :=
  ⟨(hst x).mp hx.1, fun y hy => hx.2 y ((hst y).mpr hy)⟩

end LeastOf

/-- Subtraction compares integers. -/
theorem subtract_isComparator : IsComparator fun a b : ℤ => a - b where
  neg_iff := fun a b => by omega
  le_trans := fun {a b c} hab hbc => by omega

end Foundation
