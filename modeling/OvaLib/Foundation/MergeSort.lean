import Mathlib.Data.List.Sort
import Mathlib.Tactic.Common

/-!
# Merge sort by halving

A merge sort that splits a list in the middle, the shorter half first. The order is a Boolean
relation. That sorting permutes asks nothing of it; that the result is in order, and that items
which go before each other both ways keep their places, ask for a total preorder.

The merge is the one of the standard library, so its lemmas apply. The sort of the standard library
makes the longer half the first one. Which of the halves is the shorter one cannot be seen in the
result of a stable sort; but for a relation that is no order it can, and a program that halves in
this way is then the same function and not merely one with the same result.

## Main results

* `sortHalves_perm` — sorting permutes
* `sortHalves_pairwise` — the result is in order
* `filter_sortHalves` — sorting is stable
-/

namespace Foundation

variable {β : Type*} (le : β → β → Bool)

/-- Sort both halves and merge them. -/
def sortHalves (l : List β) : List β :=
  if l.length < 2 then l
  else
    List.merge (sortHalves (l.take (l.length / 2))) (sortHalves (l.drop (l.length / 2))) le
termination_by l.length
decreasing_by
  · rw [List.length_take]
    omega
  · rw [List.length_drop]
    omega

theorem sortHalves_short {l : List β} (h : l.length < 2) : sortHalves le l = l := by
  rw [sortHalves, if_pos h]

theorem sortHalves_long {l : List β} (h : 2 ≤ l.length) : sortHalves le l =
    List.merge (sortHalves le (l.take (l.length / 2))) (sortHalves le (l.drop (l.length / 2)))
      le := by
  rw [sortHalves, if_neg (by omega)]

/-- **Sorting permutes.** -/
theorem sortHalves_perm (l : List β) : (sortHalves le l).Perm l := by
  induction l using sortHalves.induct with
  | case1 l hlen => rw [sortHalves_short le hlen]
  | case2 l hlen ihleft ihright =>
    rw [sortHalves_long le (by omega)]
    refine (List.merge_perm_append le).trans ((ihleft.append ihright).trans ?_)
    rw [List.take_append_drop]

theorem length_sortHalves (l : List β) : (sortHalves le l).length = l.length :=
  (sortHalves_perm le l).length_eq

section

variable {le} (htrans : ∀ a b c, le a b → le b c → le a c) (htotal : ∀ a b, le a b || le b a)
include htrans

/-- Merging keeps the order within a group: the items picked on the left come first. -/
theorem filter_merge {p : β → Bool} (hp : ∀ a b, p a → p b → le a b) :
    ∀ {xs : List β} (ys : List β), xs.Pairwise (fun a b => le a b) →
      (List.merge xs ys le).filter p = xs.filter p ++ ys.filter p
  | [], ys, _ => by rw [List.nil_merge, List.filter_nil, List.nil_append]
  | x :: xs, [], _ => by rw [List.merge_right, List.filter_nil, List.append_nil]
  | x :: xs, y :: ys, h => by
    by_cases hxy : le x y
    · rw [List.cons_merge_cons_pos _ _ _ hxy, List.filter_cons,
        filter_merge hp (y :: ys) (List.Pairwise.of_cons h), List.filter_cons (x := x)]
      split <;> rfl
    · rw [List.cons_merge_cons_neg _ _ _ hxy, List.filter_cons, filter_merge hp ys h]
      split
      · next hy =>
        -- an item of the group on the left would go before `y`, and so would `x`
        have hnone : (x :: xs).filter p = [] := List.filter_eq_nil_iff.mpr fun z hz hpz => by
          refine hxy ?_
          rcases List.mem_cons.mp hz with rfl | hz
          · exact hp z y hpz hy
          · exact htrans x z y ((List.pairwise_cons.mp h).1 z hz) (hp z y hpz hy)
        rw [hnone, List.nil_append, List.nil_append, List.filter_cons_of_pos hy]
      · next hy => rw [List.filter_cons_of_neg hy]

include htotal

/-- **The result is in order.** -/
theorem sortHalves_pairwise (l : List β) : (sortHalves le l).Pairwise fun a b => le a b := by
  induction l using sortHalves.induct with
  | case1 l hlen =>
    rw [sortHalves_short le hlen]
    refine List.pairwise_iff_getElem.mpr fun i j hi hj hij => ?_
    omega
  | case2 l hlen ihleft ihright =>
    rw [sortHalves_long le (by omega)]
    exact List.pairwise_merge htrans htotal _ _ ihleft ihright

/-- **Sorting is stable**: items that go before each other both ways keep their order. -/
theorem filter_sortHalves {p : β → Bool} (hp : ∀ a b, p a → p b → le a b) (l : List β) :
    (sortHalves le l).filter p = l.filter p := by
  induction l using sortHalves.induct with
  | case1 l hlen => rw [sortHalves_short le hlen]
  | case2 l hlen ihleft ihright =>
    rw [sortHalves_long le (by omega),
      filter_merge htrans hp _ (sortHalves_pairwise htrans htotal _), ihleft, ihright,
      ← List.filter_append, List.take_append_drop]

end

end Foundation
