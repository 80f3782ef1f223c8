import Mathlib.Data.Multiset.AddSub
import OvaLib.Lists.ListClone

/-!
# What a sorted list holds

Calls of a list of the type `SORTED_LIST`, `insert_bulk` among them, with growth that may fail. A
run carries the multiset of the items that were inserted and not removed: an insertion counts when
it returns `OVA_SUCCESS`, and `insert_bulk` inserts the elements before the first that fails.

## What is shown of a run

The items in the list are that multiset, in the order of the comparator. In every state an insertion
that succeeds puts its item before the items that it ties with and after those that are below, which
fixes the place; a removal by index takes out that one item; nothing else changes.

Since the items are sorted, the multiset determines the list up to the order of ties. So stating
both says all that can be said without a history, and the place among ties is the history.

## Scope

Comparators that are total preorders, given as a function that returns an `int`. Bulk insertion
reads an array of the caller; reading past its end has no result.

## Main results

* `acceptedOf_of_success` — `insert_bulk` succeeds when all elements were inserted
* `SortedRun.keeps` — the items are that multiset, in order
* `sortedRun_inserts` — the place of an item in every list of a run
-/

namespace OvaLib

open Foundation

variable {α : Type*}

namespace ListObject

variable (cmp : Option α → Option α → ℤ)

/-! ## Bulk insertion

One insertion after the other, until one fails. -/

/-- The loop of `list_insert_bulk_impl`. -/
def insertEach : List (Option α) → ListObject α → Allocator →
    Option (ErrorCode × ListObject α × Allocator)
  | [], l, a => some (.success, l, a)
  | x :: xs, l, a =>
    (l.insert cmp x l.size a).bind fun (err, l, a) =>
      if err ≠ .success then some (err, l, a) else insertEach xs l a

/-- `list_insert_bulk_impl`. Reading past the end of the array is `none`. -/
def insertBulk (l : ListObject α) (elements : Option (List (Option α))) (count : ℤ)
    (a : Allocator) : Option (ErrorCode × ListObject α × Allocator) :=
  match elements with
  | none => some (.errorInvalidArg, l, a)
  | some elements =>
    if count ≤ 0 then some (.errorInvalidArg, l, a)
    else if elements.length < count then none
    else insertEach cmp (elements.take count.toNat) l a

/-- The elements before the first whose insertion fails. -/
def acceptedOf : List (Option α) → ListObject α → Allocator → List (Option α)
  | [], _, _ => []
  | x :: xs, l, a =>
    match l.insert cmp x l.size a with
    | some (.success, l, a) => x :: acceptedOf xs l a
    | _ => []

/-- **A bulk insertion that succeeds** inserted every element. -/
theorem acceptedOf_of_success : ∀ {xs : List (Option α)} {l l' : ListObject α} {a a' : Allocator},
    insertEach cmp xs l a = some (.success, l', a') → acceptedOf cmp xs l a = xs
  | [], _, _, _, _, _ => rfl
  | x :: xs, l, l', a, a', h => by
    rw [insertEach] at h
    obtain ⟨⟨err, l₁, a₁⟩, hinsert, h⟩ := Option.bind_eq_some_iff.mp h
    dsimp only at h
    split at h
    · next herr => exact absurd (Prod.mk.inj (Option.some.inj h)).1 herr
    · next herr =>
      obtain rfl := not_not.mp herr
      rw [acceptedOf, hinsert]
      exact congrArg (x :: ·) (acceptedOf_of_success h)

/-! ## Runs -/

/-- The sorted lists that calls make, with the items inserted and not removed. -/
inductive SortedRun [DecidableEq α] : ListObject α → Multiset (Option α) → Prop
  | create {initialCapacity : ℤ} {a a' : Allocator} {l : ListObject α} :
      createList .sortedList initialCapacity a = (some l, a') → SortedRun l 0
  | insert {l l' : ListObject α} {m : Multiset (Option α)} {item : Option α} {index : ℤ}
      {a a' : Allocator} {e : ErrorCode} : SortedRun l m →
      l.insert cmp item index a = some (e, l', a') →
      SortedRun l' (if e = .success then item ::ₘ m else m)
  | insertBulk {l l' : ListObject α} {m : Multiset (Option α)}
      {elements : Option (List (Option α))} {count : ℤ} {a a' : Allocator} {e : ErrorCode} :
      SortedRun l m → l.insertBulk cmp elements count a = some (e, l', a') →
      SortedRun l' (acceptedOf cmp ((elements.getD []).take count.toNat) l a + m)
  | remove {l l' : ListObject α} {m : Multiset (Option α)} {index : ℤ} {e : ErrorCode} :
      SortedRun l m → l.remove index = (e, l') →
      SortedRun l' (if e = .success then m.erase (l.get index).1 else m)
  | clear {l : ListObject α} {m : Multiset (Option α)} : SortedRun l m → SortedRun l.clear 0

/-- A sorted list with these items, in order. -/
def Keeps (l : ListObject α) (m : Multiset (Option α)) : Prop :=
  ∃ impl, l = sorted impl ∧ Ascends cmp impl.items ∧ (impl.items : Multiset (Option α)) = m

variable {cmp} {l l' : ListObject α} {m : Multiset (Option α)}

/-- An insertion that fails changes nothing, and one that succeeds adds the item. -/
theorem Keeps.insert (hcmp : IsComparator cmp) (h : l.Keeps cmp m) {item : Option α} {index : ℤ}
    {a a' : Allocator} {e : ErrorCode} (hinsert : l.insert cmp item index a = some (e, l', a')) :
    l'.Keeps cmp (if e = .success then item ::ₘ m else m) := by
  obtain ⟨impl, rfl, hsorted, rfl⟩ := h
  rcases impl.insert_cases cmp item a with ⟨impl', a₁, hcase⟩ | ⟨a₁, hcase⟩
  · have heq : some (ErrorCode.success, sorted impl', a₁) = some (e, l', a') := by
      rw [← hinsert, ListObject.insert, hcase]
    obtain ⟨rfl, rfl, -⟩ : .success = e ∧ sorted impl' = l' ∧ a₁ = a' := by simpa using heq
    have hitems := SortedList.insert_items hcmp hsorted item a hcase
    refine ⟨impl', rfl, ?_, ?_⟩
    · rw [hitems]
      exact ascends_insertBefore hcmp item hsorted
    · rw [hitems, if_pos rfl, Multiset.cons_coe]
      exact Multiset.coe_eq_coe.mpr (List.perm_orderedInsert _ item impl.items)
  · have heq : some (ErrorCode.errorMemory, sorted impl, a₁) = some (e, l', a') := by
      rw [← hinsert, ListObject.insert, hcase]
    obtain ⟨rfl, rfl, -⟩ : .errorMemory = e ∧ sorted impl = l' ∧ a₁ = a' := by simpa using heq
    rw [if_neg (by decide)]
    exact ⟨impl, rfl, hsorted, rfl⟩

theorem Keeps.insertEach (hcmp : IsComparator cmp) {e : ErrorCode} {a' : Allocator} :
    ∀ {xs : List (Option α)} {l : ListObject α} {m : Multiset (Option α)} {a : Allocator},
      l.Keeps cmp m → insertEach cmp xs l a = some (e, l', a') →
      l'.Keeps cmp (acceptedOf cmp xs l a + m)
  | [], l, m, a, h, hrun => by
    obtain ⟨-, rfl, -⟩ : .success = e ∧ l = l' ∧ a = a' := by
      simpa [ListObject.insertEach] using hrun
    simpa [acceptedOf] using h
  | x :: xs, l, m, a, h, hrun => by
    rw [ListObject.insertEach] at hrun
    obtain ⟨⟨err, l₁, a₁⟩, hinsert, hrun⟩ := Option.bind_eq_some_iff.mp hrun
    have h₁ := h.insert hcmp hinsert
    dsimp only at hrun
    split at hrun
    · next herr =>
      obtain ⟨rfl, rfl, -⟩ : err = e ∧ l₁ = l' ∧ a₁ = a' := by simpa using hrun
      rw [if_neg herr] at h₁
      have hnone : acceptedOf cmp (x :: xs) l a = [] := by
        rw [acceptedOf, hinsert]
        cases err <;> first | rfl | exact absurd rfl herr
      rw [hnone]
      simpa using h₁
    · next herr =>
      obtain rfl := not_not.mp herr
      rw [if_pos rfl] at h₁
      have hrest := h₁.insertEach hcmp hrun
      rw [acceptedOf, hinsert]
      dsimp only
      rwa [← Multiset.cons_coe, Multiset.cons_add, ← Multiset.add_cons]

theorem Keeps.insertBulk (hcmp : IsComparator cmp) (h : l.Keeps cmp m)
    {elements : Option (List (Option α))} {count : ℤ} {a a' : Allocator} {e : ErrorCode}
    (hrun : l.insertBulk cmp elements count a = some (e, l', a')) :
    l'.Keeps cmp (acceptedOf cmp ((elements.getD []).take count.toNat) l a + m) := by
  have hrefused : some (ErrorCode.errorInvalidArg, l, a) = some (e, l', a') →
      l'.Keeps cmp (acceptedOf cmp [] l a + m) := fun heq => by
    obtain ⟨-, rfl, -⟩ : .errorInvalidArg = e ∧ l = l' ∧ a = a' := by simpa using heq
    simpa [acceptedOf] using h
  cases elements with
  | none =>
    rw [Option.getD_none, List.take_nil]
    exact hrefused hrun
  | some elements =>
    rw [ListObject.insertBulk] at hrun
    split at hrun
    · next hcount =>
      rw [Int.toNat_of_nonpos hcount, List.take_zero]
      exact hrefused hrun
    · split at hrun
      · exact absurd hrun (by simp)
      · exact h.insertEach hcmp hrun

theorem Keeps.remove [DecidableEq α] (h : l.Keeps cmp m) {index : ℤ} {e : ErrorCode}
    (hremove : l.remove index = (e, l')) :
    l'.Keeps cmp (if e = .success then m.erase (l.get index).1 else m) := by
  obtain ⟨impl, rfl, hsorted, rfl⟩ := h
  have hascends := SortedList.ascends_remove hsorted index
  obtain ⟨rfl, rfl⟩ : (impl.remove index).1 = e ∧ sorted (impl.remove index).2 = l' :=
    Prod.mk.inj hremove
  refine ⟨_, rfl, hascends, ?_⟩
  by_cases hrange : index < 0 ∨ index ≥ impl.items.length
  · have heq : impl.remove index = (.errorIndexOutOfBounds, impl) := if_pos hrange
    rw [heq, if_neg (show ErrorCode.errorIndexOutOfBounds ≠ .success by decide)]
  · have heq : (impl.remove index).1 = .success ∧
        (impl.remove index).2.items = impl.items.eraseIdx index.toNat := by
      rw [SortedList.remove, if_neg hrange]
      exact ⟨rfl, rfl⟩
    have hi : index.toNat < impl.items.length := by omega
    have hget : ((sorted impl).get index).1 = impl.items[index.toNat] := by
      rw [ListObject.get, SortedList.get, if_neg hrange, List.getElem?_eq_getElem hi,
        Option.join_some]
    have hsplit : (impl.items : Multiset (Option α)) =
        impl.items[index.toNat] ::ₘ ↑(impl.items.eraseIdx index.toNat) :=
      Multiset.coe_eq_coe.mpr (List.getElem_cons_eraseIdx_perm hi).symm
    rw [heq.1, heq.2, hget, if_pos rfl, hsplit, Multiset.erase_cons_head]

/-- **The items of a sorted list** are those inserted and not removed, in order. -/
theorem SortedRun.keeps [DecidableEq α] (hcmp : IsComparator cmp) (h : SortedRun cmp l m) :
    l.Keeps cmp m := by
  induction h with
  | create hcreate =>
    obtain ⟨impl, himpl, rfl⟩ := Option.map_eq_some_iff.mp (Prod.mk.inj hcreate).1
    have hempty := SortedList.items_of_create (Prod.ext himpl rfl)
    exact ⟨impl, rfl, hempty ▸ .nil, by rw [hempty]; rfl⟩
  | insert _ hinsert ih => exact ih.insert hcmp hinsert
  | insertBulk _ hrun ih => exact ih.insertBulk hcmp hrun
  | remove _ hremove ih => exact ih.remove hremove
  | clear _ ih =>
    obtain ⟨impl, rfl, -, -⟩ := ih
    exact ⟨impl.clear, rfl, .nil, rfl⟩

/-- **A sorted list in every run**, for every comparator that is a total preorder and growth that
may fail: it holds the items inserted and not removed, in order. An insertion, whatever its index,
fails and changes nothing, or puts the item behind those below it and before the others. -/
theorem sortedRun_inserts [DecidableEq α] (hcmp : IsComparator cmp) (h : SortedRun cmp l m) :
    ∃ impl, l = sorted impl ∧ Ascends cmp impl.items ∧
      (impl.items : Multiset (Option α)) = m ∧
      ∀ item index a, ∃ e l' a', l.insert cmp item index a = some (e, l', a') ∧
        (e ≠ .success → l' = l) ∧
        (e = .success → ∃ impl' before after, l' = sorted impl' ∧
          impl.items = before ++ after ∧ impl'.items = before ++ item :: after ∧
          (∀ y ∈ before, cmp y item < 0) ∧ ∀ y ∈ after, 0 ≤ cmp y item) := by
  obtain ⟨impl, rfl, hsorted, hitems⟩ := h.keeps hcmp
  refine ⟨impl, rfl, hsorted, hitems, fun item index a => ?_⟩
  rcases impl.insert_cases cmp item a with ⟨impl', a', hcase⟩ | ⟨a', hcase⟩
  · refine ⟨.success, sorted impl', a', ?_, fun hne => absurd rfl hne, fun _ => ?_⟩
    · rw [ListObject.insert, hcase]
    · obtain ⟨before, after, hsplit, hplace, hbelow, habove⟩ :=
        exists_insertBefore hcmp item hsorted
      refine ⟨impl', before, after, rfl, hsplit, ?_, fun y hy => ?_, fun y hy => ?_⟩
      · rw [SortedList.insert_items hcmp hsorted item a hcase, hplace]
      · exact (hcmp.neg_iff y item).mpr (hbelow y hy)
      · exact hcmp.nonneg_of_le (habove y hy)
  · refine ⟨.errorMemory, sorted impl, a', ?_, fun _ => rfl, fun herr => absurd herr (by decide)⟩
    rw [ListObject.insert, hcase]

/-- A bulk insertion of which the third element does not find room. -/
theorem sortedRun_inserts_bulk : ∃ (l : ListObject (ℤ × ℤ)) (m : Multiset (Option (ℤ × ℤ))),
    l.size = 2 ∧ ∃ impl, l = sorted impl ∧ Ascends byPriority impl.items ∧
      (impl.items : Multiset (Option (ℤ × ℤ))) = m ∧
      ∀ item index a, ∃ e l' a', l.insert byPriority item index a = some (e, l', a') ∧
        (e ≠ .success → l' = l) ∧
        (e = .success → ∃ impl' before after, l' = sorted impl' ∧
          impl.items = before ++ after ∧ impl'.items = before ++ item :: after ∧
          (∀ y ∈ before, byPriority y item < 0) ∧ ∀ y ∈ after, 0 ≤ byPriority y item) := by
  obtain ⟨l₀, hcreate, hrun⟩ := Option.bind_eq_some_iff.mp
    (show ((createList .sortedList 2 .always).1.bind fun l =>
      (l.insertBulk byPriority (some [some (5, 0), some (3, 1), none]) 3 ⟨fun _ => false⟩).map
        fun r => (r.1, r.2.1.size)) = some (.errorMemory, 2) by decide +kernel)
  obtain ⟨⟨e, l, a⟩, hbulk, hsize⟩ := Option.map_eq_some_iff.mp hrun
  exact ⟨l, _, (Prod.mk.inj hsize).2, sortedRun_inserts byPriority_isComparator
    (.insertBulk (.create (Prod.ext hcreate rfl)) hbulk)⟩

end ListObject

end OvaLib
