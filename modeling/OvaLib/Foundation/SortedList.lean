import Mathlib.Data.List.Perm.Lattice
import Mathlib.Tactic.Common
import OvaLib.Foundation.Comparator
import OvaLib.Foundation.FiniteMap

/-!
# Sorted lists of bindings

What insertion and deletion do to the bindings of a sorted container, listed in order. Both act on
one place of the list, so a search tree only has to say on which side of a node that place is.

The list is the level between a tree and the finite map it stands for. An operation on the tree is
shown to be the operation on the list by comparing with the key of a node at a time: the entries on
the other side of the node do not change. An operation on the list is then shown once and for all to
be the one on the map. In the same way a query is answered by an entry of the list, the first or the
last with some property, and a descent finds it when the property is one of all entries up to a
place, or from a place on.

## Main results

* `KeysAscend.insertSorted_of_lt`, `KeysAscend.eraseKey_of_lt` and the like — what the operations
  do on either side of an entry
* `KeysAscend.insertSorted` — insertion keeps the order
* `KeysAscend.isLeastEntry`, `KeysAscend.isGreatestEntry` — the entries nearest to a bound
* `KeysAscend.entriesIn_left`, `KeysAscend.entriesIn_right` — where a range ends
* `Lists.insertSorted`, `Lists.eraseKey` — the two operations on the finite map
-/

namespace Foundation

variable {κ β : Type*} {cmp : κ → κ → ℤ}

/-- The keys ascend. -/
def KeysAscend (cmp : κ → κ → ℤ) (l : List (κ × β)) : Prop :=
  l.Pairwise fun p q => cmp p.1 q.1 < 0

/-- Bind `k` to `b`: an entry with an equivalent key keeps that key. -/
def insertSorted (cmp : κ → κ → ℤ) (k : κ) (b : β) : List (κ × β) → List (κ × β)
  | [] => [(k, b)]
  | p :: l =>
    if cmp k p.1 = 0 then (p.1, b) :: l
    else if cmp k p.1 < 0 then (k, b) :: p :: l
    else p :: insertSorted cmp k b l

/-- Drop the entries whose key is equivalent to `k`. -/
def eraseKey (cmp : κ → κ → ℤ) (k : κ) (l : List (κ × β)) : List (κ × β) :=
  l.filter fun p => cmp k p.1 ≠ 0

/-! ## One place of the list -/

theorem insertSorted_of_lt {k : κ} (b : β) {r : List (κ × β)} (hr : ∀ p ∈ r, cmp k p.1 < 0) :
    insertSorted cmp k b r = (k, b) :: r := by
  cases r with
  | nil => rfl
  | cons p r =>
    have hp := hr p List.mem_cons_self
    rw [insertSorted, if_neg hp.ne, if_pos hp]

/-- Insertion below everything in `r` happens in `l`. -/
theorem insertSorted_append_of_lt {k : κ} (b : β) (l : List (κ × β)) {r : List (κ × β)}
    (hr : ∀ p ∈ r, cmp k p.1 < 0) :
    insertSorted cmp k b (l ++ r) = insertSorted cmp k b l ++ r := by
  induction l with
  | nil => exact insertSorted_of_lt b hr
  | cons p l ih =>
    simp only [List.cons_append, insertSorted, ih]
    split_ifs <;> rfl

/-- Insertion above everything in `l` happens in `r`. -/
theorem insertSorted_append_of_gt {k : κ} (b : β) {l : List (κ × β)} (r : List (κ × β))
    (hl : ∀ p ∈ l, 0 < cmp k p.1) :
    insertSorted cmp k b (l ++ r) = l ++ insertSorted cmp k b r := by
  induction l with
  | nil => rfl
  | cons p l ih =>
    have hp := hl p List.mem_cons_self
    rw [List.cons_append, insertSorted, if_neg hp.ne', if_neg (not_lt.mpr hp.le),
      ih fun q hq => hl q (List.mem_cons_of_mem _ hq)]
    rfl

theorem eraseKey_append (k : κ) (l r : List (κ × β)) :
    eraseKey cmp k (l ++ r) = eraseKey cmp k l ++ eraseKey cmp k r :=
  List.filter_append _ _

theorem eraseKey_of_ne {k : κ} {l : List (κ × β)} (hl : ∀ p ∈ l, cmp k p.1 ≠ 0) :
    eraseKey cmp k l = l :=
  List.filter_eq_self.mpr fun p hp => decide_eq_true (hl p hp)

theorem eraseKey_cons_of_eq {k : κ} {p : κ × β} {l : List (κ × β)} (hp : cmp k p.1 = 0) :
    eraseKey cmp k (p :: l) = eraseKey cmp k l := by
  simp [eraseKey, hp]

/-! ## The order -/

namespace KeysAscend

variable {k : κ} {l r : List (κ × β)} {p : κ × β}

theorem append_cons_iff : KeysAscend cmp (l ++ p :: r) ↔ KeysAscend cmp l ∧ KeysAscend cmp r ∧
    (∀ q ∈ l, cmp q.1 p.1 < 0) ∧ (∀ q ∈ r, cmp p.1 q.1 < 0) ∧
      ∀ q ∈ l, ∀ q' ∈ r, cmp q.1 q'.1 < 0 := by
  simp only [KeysAscend, List.pairwise_append, List.pairwise_cons, List.mem_cons, forall_eq_or_imp]
  constructor
  · rintro ⟨hl, ⟨hp, hr⟩, hlr⟩
    exact ⟨hl, hr, fun q hq => (hlr q hq).1, hp, fun q hq => (hlr q hq).2⟩
  · rintro ⟨hl, hr, hlp, hpr, hlr⟩
    exact ⟨hl, ⟨hpr, hr⟩, fun q hq => ⟨hlp q hq, hlr q hq⟩⟩

/-- A key at most that of `p` is below everything after `p`. -/
theorem lt_right (h : IsComparator cmp) (hs : KeysAscend cmp (l ++ p :: r)) (hk : cmp k p.1 ≤ 0) :
    ∀ q ∈ r, cmp k q.1 < 0 := by
  obtain ⟨-, -, -, hpr, -⟩ := append_cons_iff.mp hs
  exact fun q hq => h.lt_of_le_of_lt hk (hpr q hq)

/-- A key at least that of `p` is above everything before `p`. -/
theorem gt_left (h : IsComparator cmp) (hs : KeysAscend cmp (l ++ p :: r)) (hk : 0 ≤ cmp k p.1) :
    ∀ q ∈ l, 0 < cmp k q.1 := by
  obtain ⟨-, -, hlp, -, -⟩ := append_cons_iff.mp hs
  exact fun q hq => (h.neg_iff q.1 k).mp (h.lt_of_lt_of_le (hlp q hq) (h.le_of_nonneg hk))

/-! What the two operations do at an entry `p`, with `l` before it and `r` after it. -/

theorem insertSorted_of_lt (h : IsComparator cmp) (hs : KeysAscend cmp (l ++ p :: r))
    (hk : cmp k p.1 < 0) (b : β) :
    Foundation.insertSorted cmp k b (l ++ p :: r) = Foundation.insertSorted cmp k b l ++ p :: r :=
  insertSorted_append_of_lt b l (List.forall_mem_cons.mpr ⟨hk, hs.lt_right h hk.le⟩)

theorem insertSorted_of_eq (h : IsComparator cmp) (hs : KeysAscend cmp (l ++ p :: r))
    (hk : cmp k p.1 = 0) (b : β) :
    Foundation.insertSorted cmp k b (l ++ p :: r) = l ++ (p.1, b) :: r := by
  rw [insertSorted_append_of_gt b _ (hs.gt_left h hk.ge), Foundation.insertSorted, if_pos hk]

theorem insertSorted_of_gt (h : IsComparator cmp) (hs : KeysAscend cmp (l ++ p :: r))
    (hk : 0 < cmp k p.1) (b : β) :
    Foundation.insertSorted cmp k b (l ++ p :: r) =
      l ++ p :: Foundation.insertSorted cmp k b r := by
  rw [insertSorted_append_of_gt b _ (hs.gt_left h hk.le), Foundation.insertSorted, if_neg hk.ne',
    if_neg (not_lt.mpr hk.le)]

theorem eraseKey_of_lt (h : IsComparator cmp) (hs : KeysAscend cmp (l ++ p :: r))
    (hk : cmp k p.1 < 0) :
    Foundation.eraseKey cmp k (l ++ p :: r) = Foundation.eraseKey cmp k l ++ p :: r := by
  rw [eraseKey_append, eraseKey_of_ne (List.forall_mem_cons.mpr
    ⟨hk.ne, fun q hq => (hs.lt_right h hk.le q hq).ne⟩)]

theorem eraseKey_of_eq (h : IsComparator cmp) (hs : KeysAscend cmp (l ++ p :: r))
    (hk : cmp k p.1 = 0) : Foundation.eraseKey cmp k (l ++ p :: r) = l ++ r := by
  rw [eraseKey_append, eraseKey_cons_of_eq hk,
    eraseKey_of_ne fun q hq => (hs.gt_left h hk.ge q hq).ne',
    eraseKey_of_ne fun q hq => (hs.lt_right h hk.le q hq).ne]

theorem eraseKey_of_gt (h : IsComparator cmp) (hs : KeysAscend cmp (l ++ p :: r))
    (hk : 0 < cmp k p.1) :
    Foundation.eraseKey cmp k (l ++ p :: r) = l ++ p :: Foundation.eraseKey cmp k r := by
  have hp : Foundation.eraseKey cmp k (p :: r) = p :: Foundation.eraseKey cmp k r :=
    List.filter_cons_of_pos (decide_eq_true hk.ne')
  rw [eraseKey_append, hp, eraseKey_of_ne fun q hq => (hs.gt_left h hk.le q hq).ne']

theorem mem_insertSorted {q : κ × β} {b : β} (hq : q ∈ insertSorted cmp k b l) :
    q = (k, b) ∨ ∃ p ∈ l, q.1 = p.1 := by
  induction l with
  | nil => exact .inl (List.mem_singleton.mp hq)
  | cons p l ih =>
    rw [Foundation.insertSorted] at hq
    split_ifs at hq
    · rcases List.mem_cons.mp hq with rfl | hq
      · exact .inr ⟨p, List.mem_cons_self, rfl⟩
      · exact .inr ⟨q, List.mem_cons_of_mem _ hq, rfl⟩
    · rcases List.mem_cons.mp hq with rfl | hq
      · exact .inl rfl
      · exact .inr ⟨q, hq, rfl⟩
    · rcases List.mem_cons.mp hq with rfl | hq
      · exact .inr ⟨q, List.mem_cons_self, rfl⟩
      · rcases ih hq with rfl | ⟨p', hp', hkey⟩
        · exact .inl rfl
        · exact .inr ⟨p', List.mem_cons_of_mem _ hp', hkey⟩

/-- **Insertion keeps the order.** -/
theorem insertSorted (h : IsComparator cmp) (hs : KeysAscend cmp l) (k : κ) (b : β) :
    KeysAscend cmp (insertSorted cmp k b l) := by
  induction l with
  | nil => exact List.pairwise_singleton _ _
  | cons p l ih =>
    obtain ⟨hp, hl⟩ := List.pairwise_cons.mp hs
    rw [Foundation.insertSorted]
    split_ifs with heq hlt
    · exact List.pairwise_cons.mpr ⟨hp, hl⟩
    · refine List.pairwise_cons.mpr ⟨fun q hq => ?_, hs⟩
      rcases List.mem_cons.mp hq with rfl | hq
      · exact hlt
      · exact h.lt_trans hlt (hp q hq)
    · refine List.pairwise_cons.mpr ⟨fun q hq => ?_, ih hl⟩
      rcases mem_insertSorted hq with rfl | ⟨p', hp', hkey⟩
      · exact (h.neg_iff _ _).mpr (show 0 < cmp k p.1 by omega)
      · rw [hkey]
        exact hp p' hp'

theorem eraseKey (hs : KeysAscend cmp l) (k : κ) : KeysAscend cmp (eraseKey cmp k l) :=
  hs.sublist List.filter_sublist

end KeysAscend

/-! ## The nearest entry -/

/-- The entry with the least key among those whose key satisfies `P`, if there are any. -/
def IsLeastEntry (cmp : κ → κ → ℤ) (P : κ → Prop) (l : List (κ × β)) : Option (κ × β) → Prop
  | none => ∀ p ∈ l, ¬P p.1
  | some p => p ∈ l ∧ P p.1 ∧ ∀ q ∈ l, P q.1 → cmp p.1 q.1 ≤ 0

/-- The entry with the greatest key among those whose key satisfies `P`, if there are any. -/
def IsGreatestEntry (cmp : κ → κ → ℤ) (P : κ → Prop) (l : List (κ × β)) :
    Option (κ × β) → Prop :=
  IsLeastEntry (fun a b => cmp b a) P l

/-- **The first entry** of an ascending list that satisfies `P` has the least key that does. -/
theorem KeysAscend.isLeastEntry (h : IsComparator cmp) {l : List (κ × β)} (hs : KeysAscend cmp l)
    (P : κ → Prop) [DecidablePred P] :
    IsLeastEntry cmp P l (l.find? fun p => decide (P p.1)) := by
  cases hfind : l.find? fun p => decide (P p.1) with
  | none => exact fun p hp hP => List.find?_eq_none.mp hfind p hp (decide_eq_true hP)
  | some p =>
    obtain ⟨hP, before, after, rfl, hbefore⟩ := List.find?_eq_some_iff_append.mp hfind
    obtain ⟨-, -, -, hafter, -⟩ := KeysAscend.append_cons_iff.mp hs
    refine ⟨by simp, of_decide_eq_true hP, fun q hq hPq => ?_⟩
    rcases List.mem_append.mp hq with hq | hq
    · exact absurd hPq (by simpa using hbefore q hq)
    · rcases List.mem_cons.mp hq with rfl | hq
      · exact (h.self _).le
      · exact (hafter q hq).le

/-- **The last entry** of an ascending list that satisfies `P` has the greatest key that does. -/
theorem KeysAscend.isGreatestEntry (h : IsComparator cmp) {l : List (κ × β)}
    (hs : KeysAscend cmp l) (P : κ → Prop) [DecidablePred P] :
    IsGreatestEntry cmp P l (l.reverse.find? fun p => decide (P p.1)) := by
  have hdescend : KeysAscend (fun a b => cmp b a) l.reverse := List.pairwise_reverse.mpr hs
  have hleast := hdescend.isLeastEntry h.flip P
  rw [IsGreatestEntry]
  cases hfind : l.reverse.find? fun p => decide (P p.1) with
  | none =>
    rw [hfind] at hleast
    exact fun p hp => hleast p (List.mem_reverse.mpr hp)
  | some p =>
    rw [hfind] at hleast
    obtain ⟨hp, hP, hmin⟩ := hleast
    exact ⟨List.mem_reverse.mp hp, hP, fun q hq => hmin q (List.mem_reverse.mpr hq)⟩

/-! ## A range of entries

The entries in a range are consecutive, and a node outside of it tells that those on one side are
outside too. -/

/-- The entries whose keys lie between `low` and `high`, the bounds included. -/
def entriesIn (cmp : κ → κ → ℤ) (low high : κ) (l : List (κ × β)) : List (κ × β) :=
  l.filter fun p => cmp low p.1 ≤ 0 ∧ cmp p.1 high ≤ 0

theorem entriesIn_append_cons (cmp : κ → κ → ℤ) (low high : κ) (l : List (κ × β)) (p : κ × β)
    (r : List (κ × β)) :
    entriesIn cmp low high (l ++ p :: r) =
      entriesIn cmp low high l ++ (entriesIn cmp low high [p] ++ entriesIn cmp low high r) := by
  simp only [entriesIn, ← List.filter_append, List.singleton_append]

theorem entriesIn_singleton (h : IsComparator cmp) (low high : κ) (p : κ × β) :
    entriesIn cmp low high [p] = if 0 ≤ cmp p.1 low ∧ cmp p.1 high ≤ 0 then [p] else [] := by
  have hlow : 0 ≤ cmp p.1 low ↔ cmp low p.1 ≤ 0 := ⟨h.le_of_nonneg, h.nonneg_of_le⟩
  simp only [entriesIn, List.filter_singleton, hlow, Bool.cond_decide]

/-- Nothing below an entry that is at most `low` is in the range. -/
theorem KeysAscend.entriesIn_left (h : IsComparator cmp) {low : κ} (high : κ) {p : κ × β}
    {l r : List (κ × β)} (hs : KeysAscend cmp (l ++ p :: r)) (hp : cmp p.1 low ≤ 0) :
    entriesIn cmp low high l = [] := by
  have hleft := hs.gt_left h (h.nonneg_of_le hp)
  refine List.filter_eq_nil_iff.mpr fun q hq hin => ?_
  exact absurd (of_decide_eq_true hin).1 (not_le.mpr (hleft q hq))

/-- Nothing above an entry that is at least `high` is in the range. -/
theorem KeysAscend.entriesIn_right (h : IsComparator cmp) (low : κ) {high : κ} {p : κ × β}
    {l r : List (κ × β)} (hs : KeysAscend cmp (l ++ p :: r)) (hp : 0 ≤ cmp p.1 high) :
    entriesIn cmp low high r = [] := by
  have hright := hs.lt_right h (h.le_of_nonneg hp)
  refine List.filter_eq_nil_iff.mpr fun q hq hin => ?_
  exact absurd (of_decide_eq_true hin).2 (not_le.mpr ((h.neg_iff _ _).mp (hright q hq)))

/-! ## The finite map -/

/-- Insertion either adds an entry or replaces one. -/
theorem insertSorted_perm (cmp : κ → κ → ℤ) (k : κ) (b : β) (l : List (κ × β)) :
    (insertSorted cmp k b l).Perm ((k, b) :: l) ∨ ∃ p l', cmp k p.1 = 0 ∧ l.Perm (p :: l') ∧
      (insertSorted cmp k b l).Perm ((p.1, b) :: l') := by
  induction l with
  | nil => exact .inl (List.Perm.refl _)
  | cons p l ih =>
    rw [insertSorted]
    split_ifs with heq hlt
    · exact .inr ⟨p, l, heq, List.Perm.refl _, List.Perm.refl _⟩
    · exact .inl (List.Perm.refl _)
    · rcases ih with hperm | ⟨p', l', hkey, hl, hperm⟩
      · exact .inl ((hperm.cons p).trans (List.Perm.swap _ _ _))
      · exact .inr ⟨p', p :: l', hkey, (hl.cons p).trans (List.Perm.swap _ _ _),
          (hperm.cons p).trans (List.Perm.swap _ _ _)⟩

variable {l : List (κ × β)}

theorem Lists.insertSorted {h : IsComparator cmp} [DecidableEq h.KeyClass]
    {M : h.KeyClass → Option β} (hs : KeysAscend cmp l)
    (hM : Lists (fun p => h.keyClass p.1) Prod.snd l M) (k : κ) (b : β) :
    Lists (fun p => h.keyClass p.1) Prod.snd (insertSorted cmp k b l)
      (Function.update M (h.keyClass k) (some b)) := by
  have hsorted := hs.insertSorted h k b
  rcases insertSorted_perm cmp k b l with hperm | ⟨p, l', hkey, hl, hperm⟩
  · -- an equivalent entry of `l` would be a second one in the sorted result
    refine Lists.perm (hM.insert (e := (k, b)) (hM.eq_none_iff.mpr fun e he heq => ?_)) hperm
    have hne : ((Foundation.insertSorted cmp k b l).map fun p => h.keyClass p.1).Nodup := by
      refine List.pairwise_map.mpr (hsorted.imp fun hlt heq => ?_)
      exact hlt.ne (h.keyClass_eq_iff.mp heq)
    rw [(hperm.map _).nodup_iff, List.map_cons, List.nodup_cons] at hne
    exact hne.1 (List.mem_map.mpr ⟨e, he, heq⟩)
  · have hkeep : h.keyClass ((p.1, b) : κ × β).1 = h.keyClass p.1 := rfl
    have hreplace := (hM.perm hl.symm).replace hkeep
    rw [h.keyClass_eq_iff.mpr hkey]
    exact hreplace.perm hperm

theorem Lists.eraseKey {h : IsComparator cmp} [DecidableEq h.KeyClass]
    {M : h.KeyClass → Option β} (hM : Lists (fun p => h.keyClass p.1) Prod.snd l M) (k : κ) :
    Lists (fun p => h.keyClass p.1) Prod.snd (eraseKey cmp k l)
      (Function.update M (h.keyClass k) none) where
  nodup := hM.nodup.sublist (List.filter_sublist.map _)
  eq_some_iff := fun g b => by
    simp only [Foundation.eraseKey, List.mem_filter, decide_eq_true_eq]
    by_cases hg : g = h.keyClass k
    · subst hg
      rw [Function.update_self]
      constructor
      · intro hb
        exact absurd hb (by simp)
      · rintro ⟨e, ⟨-, hne⟩, hkey, -⟩
        exact absurd (h.keyClass_eq_iff.mp hkey.symm) hne
    · rw [Function.update_of_ne hg, hM.eq_some_iff]
      constructor
      · rintro ⟨e, he, rfl, hval⟩
        exact ⟨e, ⟨he, fun heq => hg (h.keyClass_eq_iff.mpr (h.eq_symm heq))⟩, rfl, hval⟩
      · rintro ⟨e, ⟨he, -⟩, hkey, hval⟩
        exact ⟨e, he, hkey, hval⟩

end Foundation
