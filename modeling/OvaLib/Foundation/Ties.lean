import Mathlib.Data.List.Forall2
import Mathlib.Data.List.Induction
import Mathlib.Data.List.Palindrome
import Mathlib.Data.List.Perm.Basic
import Mathlib.Data.List.Sort
import OvaLib.Foundation.Comparator

/-!
# Sequences in order, up to ties

A comparator that takes different items for equal leaves the order of such ties open. Two sequences
in order with the same items agree up to ties, position by position; they agree for good when each
has every group of ties in the same order. Inserting an item before the items it is tied with turns
a sequence around within each group.

A group is the list of the items that are tied with a given one, in their order. A stable algorithm
keeps every group, and one that inserts before the ties reverses every group, so when it is used to
copy a sequence the copy is equal to the original if and only if every group is a palindrome. All of
this asks for a total preorder only.

## Main results

* `forall₂_of_perm` — the same items in order are the same up to ties
* `eq_of_tiesWith_eq` — the groups of ties decide
* `insertAllBefore_eq_iff` — inserting from the first item on gives the sequence back exactly
  when its groups of ties are palindromes
-/

namespace Foundation

variable {α : Type*} {cmp : α → α → ℤ}

/-- The items do not descend. -/
def Ascends (cmp : α → α → ℤ) (l : List α) : Prop := l.Pairwise fun x y => cmp x y ≤ 0

/-- The items tied with `x`, in their order. -/
def tiesWith (cmp : α → α → ℤ) (x : α) (l : List α) : List α := l.filter fun y => cmp x y = 0

/-! ## The same items in order -/

/-- The order of the classes of ties. -/
def ClassLe (h : IsComparator cmp) (c d : h.KeyClass) : Prop :=
  ∃ x y, h.keyClass x = c ∧ h.keyClass y = d ∧ cmp x y ≤ 0

theorem ClassLe.antisymm {h : IsComparator cmp} {c d : h.KeyClass} (hcd : ClassLe h c d)
    (hdc : ClassLe h d c) : c = d := by
  obtain ⟨x, y, rfl, rfl, hxy⟩ := hcd
  obtain ⟨y', x', hy, hx, hyx⟩ := hdc
  rw [h.keyClass_eq_iff] at hx hy ⊢
  have hle := h.le_trans (h.le_trans (h.eq_symm hy).le hyx) hx.le
  have hge := h.nonneg_of_le hle
  omega

/-- **The same items in order** are the same sequence, up to ties. -/
theorem forall₂_of_perm (h : IsComparator cmp) {s t : List α} (hperm : s.Perm t)
    (hs : Ascends cmp s) (ht : Ascends cmp t) : List.Forall₂ (fun x y => cmp x y = 0) s t := by
  have hclass : ∀ {l : List α}, Ascends cmp l → (l.map h.keyClass).Pairwise (ClassLe h) :=
    fun hl => List.pairwise_map.mpr (hl.imp fun hxy => ⟨_, _, rfl, rfl, hxy⟩)
  have hmap : s.map h.keyClass = t.map h.keyClass :=
    (hperm.map _).eq_of_pairwise (fun _ _ _ _ => ClassLe.antisymm) (hclass hs) (hclass ht)
  rw [← List.forall₂_eq_eq_eq, List.forall₂_map_left_iff, List.forall₂_map_right_iff] at hmap
  exact hmap.imp fun x y hxy => h.keyClass_eq_iff.mp hxy

/-- Items that are tied only with themselves are in one place only. -/
theorem eq_of_perm (h : IsComparator cmp) {s t : List α} (hperm : s.Perm t) (hs : Ascends cmp s)
    (ht : Ascends cmp t) (hties : ∀ x ∈ s, ∀ y ∈ s, cmp x y = 0 → x = y) : s = t := by
  refine hperm.eq_of_pairwise (fun x y hx hy hxy hyx => ?_) hs ht
  have hge := h.nonneg_of_le hyx
  exact hties x hx y (hperm.mem_iff.mpr hy) (by omega)

/-! ## Groups of ties -/

theorem mem_tiesWith {x y : α} {l : List α} : y ∈ tiesWith cmp x l ↔ y ∈ l ∧ cmp x y = 0 := by
  rw [tiesWith, List.mem_filter, decide_eq_true_eq]

theorem tiesWith_cons_of_eq {x y : α} (hxy : cmp x y = 0) (l : List α) :
    tiesWith cmp x (y :: l) = y :: tiesWith cmp x l :=
  List.filter_cons_of_pos (decide_eq_true hxy)

theorem tiesWith_cons_of_ne {x y : α} (hxy : cmp x y ≠ 0) (l : List α) :
    tiesWith cmp x (y :: l) = tiesWith cmp x l :=
  List.filter_cons_of_neg (by simpa using hxy)

theorem Ascends.le_of_mem (h : IsComparator cmp) {a x : α} {l : List α}
    (hl : Ascends cmp (a :: l)) (hx : x ∈ a :: l) : cmp a x ≤ 0 := by
  rcases List.mem_cons.mp hx with rfl | hx
  · exact (h.self x).le
  · exact (List.pairwise_cons.mp hl).1 x hx

/-- Items in order, read by their indices. -/
theorem Ascends.le_of_getElem? {l : List α} (hl : Ascends cmp l) {i j : ℕ} {x y : α} (hij : i < j)
    (hx : l[i]? = some x) (hy : l[j]? = some y) : cmp x y ≤ 0 := by
  obtain ⟨hi, rfl⟩ := List.getElem?_eq_some_iff.mp hx
  obtain ⟨hj, rfl⟩ := List.getElem?_eq_some_iff.mp hy
  exact List.pairwise_iff_getElem.mp hl i j hi hj hij

/-- **The groups of ties decide** what a sequence in order is. -/
theorem eq_of_tiesWith_eq (h : IsComparator cmp) {s t : List α} (hs : Ascends cmp s)
    (ht : Ascends cmp t) (hties : ∀ x, tiesWith cmp x s = tiesWith cmp x t) : s = t := by
  have hmem : ∀ x, x ∈ s ↔ x ∈ t := fun x => by
    have hx := congrArg (x ∈ ·) (hties x)
    simpa only [mem_tiesWith, h.self, and_true, eq_iff_iff] using hx
  induction s generalizing t with
  | nil =>
    cases t with
    | nil => rfl
    | cons b t => exact absurd ((hmem b).mpr List.mem_cons_self) List.not_mem_nil
  | cons a s ih =>
    cases t with
    | nil => exact absurd ((hmem a).mp List.mem_cons_self) List.not_mem_nil
    | cons b t =>
      have hab := hs.le_of_mem h ((hmem b).mpr List.mem_cons_self)
      have hba := h.nonneg_of_le (ht.le_of_mem h ((hmem a).mp List.mem_cons_self))
      have htie : cmp a b = 0 := by omega
      have hhead := hties a
      rw [tiesWith_cons_of_eq (h.self a), tiesWith_cons_of_eq htie] at hhead
      obtain rfl := (List.cons.inj hhead).1
      have htail : ∀ x, tiesWith cmp x s = tiesWith cmp x t := fun x => by
        have hx := hties x
        by_cases hxa : cmp x a = 0
        · rw [tiesWith_cons_of_eq hxa, tiesWith_cons_of_eq hxa] at hx
          exact (List.cons.inj hx).2
        · rwa [tiesWith_cons_of_ne hxa, tiesWith_cons_of_ne hxa] at hx
      refine congrArg (a :: ·) (ih (List.Pairwise.of_cons hs) (List.Pairwise.of_cons ht) htail ?_)
      intro x
      have hx := congrArg (x ∈ ·) (htail x)
      simpa only [mem_tiesWith, h.self, and_true, eq_iff_iff] using hx

/-! ## Insertion before the ties -/

/-- Every group of ties reads the same backwards. -/
def TiesPalindrome (cmp : α → α → ℤ) (l : List α) : Prop :=
  ∀ x ∈ l, (tiesWith cmp x l).Palindrome

/-- Insertion before the first item that is not below. -/
abbrev insertBefore (cmp : α → α → ℤ) (x : α) (l : List α) : List α :=
  l.orderedInsert (fun x y => cmp x y ≤ 0) x

/-- Between the items below and the others. -/
theorem insertBefore_append {x : α} {s t : List α} (hs : ∀ y ∈ s, 0 < cmp x y)
    (ht : ∀ y ∈ t, cmp x y ≤ 0) : insertBefore cmp x (s ++ t) = s ++ x :: t := by
  induction s with
  | nil =>
    cases t with
    | nil => rfl
    | cons y t => exact List.orderedInsert_cons_of_le _ t (ht y List.mem_cons_self)
  | cons y s ih =>
    have hy := hs y List.mem_cons_self
    rw [List.cons_append, insertBefore, List.orderedInsert_of_not_le _ _ (by omega)]
    exact congrArg (y :: ·) (ih fun z hz => hs z (List.mem_cons_of_mem y hz))

/-- Where the item goes. -/
theorem exists_insertBefore (h : IsComparator cmp) (x : α) {l : List α} (hl : Ascends cmp l) :
    ∃ s t, l = s ++ t ∧ insertBefore cmp x l = s ++ x :: t ∧ (∀ y ∈ s, 0 < cmp x y) ∧
      ∀ y ∈ t, cmp x y ≤ 0 := by
  induction l with
  | nil => exact ⟨[], [], rfl, rfl, fun _ hy => absurd hy List.not_mem_nil,
      fun _ hy => absurd hy List.not_mem_nil⟩
  | cons a l ih =>
    by_cases hxa : cmp x a ≤ 0
    · refine ⟨[], a :: l, rfl, List.orderedInsert_cons_of_le _ l hxa,
        fun _ hy => absurd hy List.not_mem_nil, fun y hy => ?_⟩
      exact h.le_trans hxa (hl.le_of_mem h hy)
    · obtain ⟨s, t, rfl, hinsert, hbelow, habove⟩ := ih (List.Pairwise.of_cons hl)
      refine ⟨a :: s, t, rfl, ?_, ?_, habove⟩
      · rw [insertBefore, List.orderedInsert_of_not_le _ _ (by omega)]
        exact congrArg (a :: ·) hinsert
      · exact List.forall_mem_cons.mpr ⟨not_le.mp hxa, hbelow⟩

theorem ascends_insertBefore (h : IsComparator cmp) (x : α) {l : List α} (hl : Ascends cmp l) :
    Ascends cmp (insertBefore cmp x l) := by
  have : Std.Total fun x y => cmp x y ≤ 0 := ⟨fun x y => by have := h.neg_iff x y; omega⟩
  have : IsTrans α fun x y => cmp x y ≤ 0 := ⟨fun _ _ _ => h.le_trans⟩
  exact List.Pairwise.orderedInsert x l hl

/-- The item comes first in its group of ties. -/
theorem tiesWith_insertBefore (h : IsComparator cmp) (x a : α) {l : List α} :
    tiesWith cmp x (insertBefore cmp a l) =
      if cmp x a = 0 then a :: tiesWith cmp x l else tiesWith cmp x l := by
  induction l with
  | nil =>
    rw [insertBefore, List.orderedInsert_nil]
    split
    · next hxa => exact tiesWith_cons_of_eq hxa []
    · next hxa => exact tiesWith_cons_of_ne hxa []
  | cons b l ih =>
    rw [insertBefore, List.orderedInsert_cons]
    by_cases hab : cmp a b ≤ 0
    · rw [if_pos hab]
      split
      · next hxa => exact tiesWith_cons_of_eq hxa _
      · next hxa => exact tiesWith_cons_of_ne hxa _
    · rw [if_neg hab]
      by_cases hxb : cmp x b = 0
      · -- the item inserted is above those tied with `x`
        have hxa : cmp x a ≠ 0 := fun hxa => by
          have hle := h.le_trans (h.eq_symm hxa).le hxb.le
          omega
        rw [tiesWith_cons_of_eq hxb, tiesWith_cons_of_eq hxb, ih, if_neg hxa, if_neg hxa]
      · rw [tiesWith_cons_of_ne hxb, tiesWith_cons_of_ne hxb, ih]

/-- Inserting the items one after another, from the first on. -/
def insertAllBefore (cmp : α → α → ℤ) (l : List α) : List α :=
  l.foldl (fun t x => insertBefore cmp x t) []

theorem insertAllBefore_concat (l : List α) (x : α) :
    insertAllBefore cmp (l ++ [x]) = insertBefore cmp x (insertAllBefore cmp l) := by
  rw [insertAllBefore, List.foldl_concat]
  rfl

/-- **Every group of ties is turned around.** -/
theorem tiesWith_insertAllBefore (h : IsComparator cmp) (x : α) (l : List α) :
    tiesWith cmp x (insertAllBefore cmp l) = (tiesWith cmp x l).reverse := by
  induction l using List.reverseRecOn with
  | nil => rfl
  | append_singleton l a ih =>
    have happend : tiesWith cmp x (l ++ [a]) = tiesWith cmp x l ++ tiesWith cmp x [a] :=
      List.filter_append _ _
    rw [insertAllBefore_concat, tiesWith_insertBefore h, ih, happend, List.reverse_append]
    by_cases hxa : cmp x a = 0
    · rw [if_pos hxa, tiesWith_cons_of_eq hxa]
      rfl
    · rw [if_neg hxa, tiesWith_cons_of_ne hxa]
      rfl

theorem ascends_insertAllBefore (h : IsComparator cmp) (l : List α) :
    Ascends cmp (insertAllBefore cmp l) := by
  induction l using List.reverseRecOn with
  | nil => exact .nil
  | append_singleton l a ih =>
    rw [insertAllBefore_concat]
    exact ascends_insertBefore h a ih

/-- **Inserting the items of a sequence in order again**, from the first on and each before its
ties, gives the sequence back exactly when its groups of ties are palindromes. -/
theorem insertAllBefore_eq_iff (h : IsComparator cmp) {l : List α} (hl : Ascends cmp l) :
    insertAllBefore cmp l = l ↔ TiesPalindrome cmp l := by
  constructor
  · intro heq x _
    have hties := tiesWith_insertAllBefore h x l
    rw [heq] at hties
    exact .of_reverse_eq hties.symm
  · intro hpal
    refine eq_of_tiesWith_eq h (ascends_insertAllBefore h l) hl fun x => ?_
    rw [tiesWith_insertAllBefore h]
    rcases List.eq_nil_or_concat' (tiesWith cmp x l) with hnil | ⟨init, y, hy⟩
    · rw [hnil]
      rfl
    · -- `x` need not be in the sequence, but an item tied with it is
      obtain ⟨hyl, hxy⟩ := mem_tiesWith.mp (hy ▸ List.mem_concat_self : y ∈ tiesWith cmp x l)
      have hgroup : tiesWith cmp x l = tiesWith cmp y l := by
        refine List.filter_congr fun z _ => decide_eq_decide.mpr ⟨fun hxz => ?_, fun hyz => ?_⟩
        · exact h.equivalence.trans (h.eq_symm hxy) hxz
        · exact h.equivalence.trans hxy hyz
      rw [hgroup]
      exact (hpal y hyl).reverse_eq

end Foundation
