import OvaLib.Lists.ListRefinement
import OvaLib.Sorter.Buffer

/-!
# The sorter

`sort.c`, for the two kinds of list. The items are copied into a buffer, the buffer is rearranged,
and the list is cleared and filled again from it, one insertion at a time. What these insertions
return is not looked at.

The sorter reaches a list through the method pointers of the list object, so the model takes them as
a record. An operation returns `none` when an index is outside of the buffer, the stack overflows or
a loop does not end.

## The contract

A call that rearranges a list keeps its items: `sort.h` speaks of sorting, shuffling and reversing a
list, and of no failure, since the methods return nothing. When the buffer, or the stack of
quicksort, is not to be had, the list is left as it is, and that is the only way for a caller to see
the failure.

## When items are lost

The list is cleared before it is filled. From that point on the only copy of the items is the
buffer, which is released at the end. An array list keeps its slots when it is cleared and has one
for each item. A linked list has freed its nodes and allocates new ones, and the first insertion
that fails drops its item and all that follow, whose indices are then beyond the size.
`sorter_keeps_iff` says when that is: the condition is about the outcomes of the allocator, and
`scratch` counts the allocations that come before the first node.

## Main results

* `SorterCall.run_spec` — a call permutes a buffer and writes it back, or leaves the list alone
* `sorter_keeps_iff` — when the items survive
-/

namespace OvaLib

namespace Sorter

open Foundation
open LinkedList (Describes)

variable {σ α : Type*}

/-! ## The model -/

/-- The methods of a list object that the sorter calls. -/
structure ListMethods (σ α : Type*) where
  size : σ → ℤ
  /-- A linked list moves its cursor when it is read. -/
  get : σ → ℤ → Option α × σ
  /-- An insertion into a sorted list walks through it, and takes fuel. -/
  insert : σ → Option α → ℤ → Allocator → Option (ErrorCode × σ × Allocator)
  clear : σ → σ

/-- The methods that `create_array_list` installs. -/
def arrayListMethods : ListMethods (ArrayList (Option α)) α where
  size l := l.size
  get l index := ((l.get index).join, l)
  insert l item index a := some (l.insert item index a)
  clear := ArrayList.clear

/-- The methods that `create_linked_list` installs. -/
def linkedListMethods : ListMethods (LinkedList α) α where
  size := LinkedList.size
  get := LinkedList.get
  insert := LinkedList.insert
  clear := LinkedList.clear

section

variable (M : ListMethods σ α)

/-- `arr[i] = lst->get(lst, i)`, for `n` indices from `i` on. -/
def getAll : ℕ → ℕ → σ → List (Option α) × σ
  | 0, _, lst => ([], lst)
  | n + 1, i, lst =>
    let (x, lst) := M.get lst i
    let (arr, lst) := getAll n (i + 1) lst
    (x :: arr, lst)

/-- `list_snapshot`; the first component is `*out_size`. -/
def listSnapshot (lst : σ) (a : Allocator) : ℤ × Option (List (Option α)) × σ × Allocator :=
  let n := M.size lst
  if n ≤ 0 then (n, none, lst, a)
  else
    let (out, a) := a.alloc
    if !out then (n, none, lst, a)
    else
      let (arr, lst) := getAll M n.toNat 0 lst
      (n, some arr, lst, a)

/-- `lst->insert(lst, arr[i], i)`, for all indices from `i` on. -/
def insertAll : List (Option α) → ℕ → σ → Allocator → Option (σ × Allocator)
  | [], _, lst, a => some (lst, a)
  | x :: arr, i, lst, a =>
    (M.insert lst x i a).bind fun (_, lst, a) => insertAll arr (i + 1) lst a

/-- `list_replace_with`. -/
def listReplaceWith (lst : σ) (arr : List (Option α)) (a : Allocator) : Option (σ × Allocator) :=
  insertAll M arr 0 (M.clear lst) a

/-- `sorter_quick`. -/
def sorterQuick (cmp : Option α → Option α → ℤ) (lst : σ) (a : Allocator) :
    Option (σ × Allocator) :=
  match listSnapshot M lst a with
  | (size, arr, lst, a) =>
    if size < 2 then some (lst, a)
    else
      match arr with
      | none => some (lst, a)
      | some arr =>
        let (stack, a) := a.alloc
        if !stack then some (lst, a)
        else
          (quickLoop cmp (2 * size.toNat) (size.toNat + 1) arr [size - 1, 0]).bind fun arr =>
            listReplaceWith M lst arr a

/-- `sorter_merge`. What `tmp` holds at first is never read. -/
def sorterMerge (cmp : Option α → Option α → ℤ) (lst : σ) (a : Allocator) :
    Option (σ × Allocator) :=
  let size := M.size lst
  if size < 2 then some (lst, a)
  else
    let (arr, a) := a.alloc
    if !arr then some (lst, a)
    else
      let (tmp, a) := a.alloc
      if !tmp then some (lst, a)
      else
        let (arr, lst) := getAll M size.toNat 0 lst
        (mergeSortRecursive cmp (size.toNat + 1) arr (.replicate size.toNat none) 0 size).bind
          fun (arr, _) => listReplaceWith M lst arr a

/-- `collections_shuffle`; `rand` is what `rand()` returns next. -/
def collectionsShuffle (rand : ℕ → ℕ) (lst : σ) (a : Allocator) : Option (σ × Allocator) :=
  match listSnapshot M lst a with
  | (n, arr, lst, a) =>
    if n < 2 then some (lst, a)
    else
      match arr with
      | none => some (lst, a)
      | some arr =>
        (shuffleLoop rand (n - 1).toNat arr).bind fun arr => listReplaceWith M lst arr a

/-- `collections_reverse`. -/
def collectionsReverse (lst : σ) (a : Allocator) : Option (σ × Allocator) :=
  match listSnapshot M lst a with
  | (n, arr, lst, a) =>
    if n < 2 then some (lst, a)
    else
      match arr with
      | none => some (lst, a)
      | some arr =>
        (reverseLoop (n.toNat + 1) arr 0 (n - 1)).bind fun arr => listReplaceWith M lst arr a

end

/-- A call that rearranges a list. -/
inductive SorterCall (α : Type*)
  | quick (cmp : Option α → Option α → ℤ)
  | merge (cmp : Option α → Option α → ℤ)
  | shuffle (rand : ℕ → ℕ)
  | reverse

namespace SorterCall

/-- What the call does. -/
def run (M : ListMethods σ α) (lst : σ) (a : Allocator) :
    SorterCall α → Option (σ × Allocator)
  | quick cmp => sorterQuick M cmp lst a
  | merge cmp => sorterMerge M cmp lst a
  | shuffle rand => collectionsShuffle M rand lst a
  | reverse => collectionsReverse M lst a

/-- How many allocations come before the list is written back. -/
def scratch : SorterCall α → ℕ
  | quick _ => 2
  | merge _ => 2
  | shuffle _ => 1
  | reverse => 1

end SorterCall

/-! ## A call permutes a buffer

What the four calls have in common. `rand` is any function, and shuffling needs nothing of it. -/

/-- The methods that read a list are those of a sequence. -/
structure ReadsSequence (M : ListMethods σ α) (Holds : σ → List (Option α) → Prop) : Prop where
  size_eq : ∀ {l s}, Holds l s → M.size l = s.length
  get_eq : ∀ {l s} {i : ℕ} (_ : Holds l s) (_ : i < s.length),
    (M.get l i).1 = s[i]?.join ∧ Holds (M.get l i).2 s

variable {M : ListMethods σ α} {Holds : σ → List (Option α) → Prop}

theorem getAll_spec (hM : ReadsSequence M Holds) : ∀ {n i : ℕ} {l : σ} {s : List (Option α)},
    Holds l s → i + n = s.length →
    (getAll M n i l).1 = s.drop i ∧ Holds (getAll M n i l).2 s
  | 0, i, l, s, h, hlen => ⟨by rw [List.drop_of_length_le (by omega)]; rfl, h⟩
  | n + 1, i, l, s, h, hlen => by
    have hi : i < s.length := by omega
    obtain ⟨hitem, hget⟩ := hM.get_eq h hi
    obtain ⟨harr, hrest⟩ := getAll_spec hM (n := n) (i := i + 1) hget (by omega)
    refine ⟨?_, hrest⟩
    rw [List.getElem?_eq_getElem hi, Option.join_some] at hitem
    rw [getAll, List.drop_eq_getElem_cons hi]
    exact congrArg₂ List.cons hitem harr

theorem listSnapshot_ok (hM : ReadsSequence M Holds) {l : σ} {s : List (Option α)}
    (h : Holds l s) (hpos : 0 < s.length) {a : Allocator} (ha : a.outcome 0 = true) :
    ∃ l', listSnapshot M l a = ((s.length : ℤ), some s, l', a.skip 1) ∧ Holds l' s := by
  have hsize := hM.size_eq h
  obtain ⟨harr, hholds⟩ := getAll_spec hM (n := s.length) (i := 0) h (Nat.zero_add _)
  refine ⟨(getAll M s.length 0 l).2, ?_, hholds⟩
  rw [List.drop_zero] at harr
  simp only [listSnapshot, Allocator.alloc, ha, hsize]
  rw [if_neg (by omega), Int.toNat_natCast, harr]
  rfl

theorem listSnapshot_none (hM : ReadsSequence M Holds) {l : σ} {s : List (Option α)}
    (h : Holds l s) {a : Allocator} (hnone : s.length = 0 ∨ a.outcome 0 = false) :
    ∃ a', listSnapshot M l a = ((s.length : ℤ), none, l, a') := by
  have hsize := hM.size_eq h
  rw [listSnapshot, hsize]
  by_cases hpos : s.length = 0
  · exact ⟨a, by rw [if_pos (by omega)]⟩
  · refine ⟨a.alloc.2, ?_⟩
    rw [if_neg (by omega), Allocator.alloc, hnone.resolve_left hpos]
    rfl

/-- Snapshots that are too short, or that could not be taken, change nothing. -/
theorem listSnapshot_early (hM : ReadsSequence M Holds) {l : σ} {s : List (Option α)}
    (h : Holds l s) {a : Allocator} (hearly : s.length < 2 ∨ a.outcome 0 = false) :
    ∃ arr l' a', listSnapshot M l a = ((s.length : ℤ), arr, l', a') ∧ Holds l' s ∧
      (s.length < 2 ∨ arr = none) := by
  by_cases hnone : s.length = 0 ∨ a.outcome 0 = false
  · obtain ⟨a', hsnap⟩ := listSnapshot_none hM h hnone
    exact ⟨none, l, a', hsnap, h, .inr rfl⟩
  · obtain ⟨hpos, ha⟩ := not_or.mp hnone
    rw [Bool.not_eq_false] at ha
    obtain ⟨l', hsnap, hl'⟩ := listSnapshot_ok hM h (Nat.pos_of_ne_zero hpos) ha
    exact ⟨some s, l', a.skip 1, hsnap, hl', .inl (hearly.resolve_right (by simp [ha]))⟩

theorem outcome_zero_of_scratch {a : Allocator} (h : ∃ i < 1, a.outcome i = false) :
    a.outcome 0 = false := by
  obtain ⟨i, hi, hfalse⟩ := h
  rwa [Nat.lt_one_iff.mp hi] at hfalse

/-- Of two buffers, the second fails where the first does not. -/
theorem outcome_one_of_scratch {a : Allocator} (h : ∃ i < 2, a.outcome i = false)
    (ha : a.outcome 0 = true) : a.outcome 1 = false := by
  obtain ⟨i, hi, hfalse⟩ := h
  have hne : i ≠ 0 := by
    rintro rfl
    rw [ha] at hfalse
    exact absurd hfalse (by decide)
  rwa [show i = 1 by omega] at hfalse

/-- **`sorter_quick` permutes the buffer**, and sorts it if the comparison is a total preorder. -/
theorem sorterQuick_spec (hM : ReadsSequence M Holds) (cmp : Option α → Option α → ℤ) {l : σ}
    {s : List (Option α)} (h : Holds l s) (hlen : 2 ≤ s.length) {a : Allocator}
    (ha : ∀ i < 2, a.outcome i = true) :
    ∃ l' arr, Holds l' s ∧ arr.Perm s ∧ (IsTotalComparator cmp → Ascends cmp arr) ∧
      sorterQuick M cmp l a = listReplaceWith M l' arr (a.skip 2) := by
  have ha₁ : a.outcome 1 = true := ha 1 (by decide)
  obtain ⟨l', hsnap, hl'⟩ := listSnapshot_ok hM h (by omega) (ha 0 (by decide))
  obtain ⟨arr, hloop, hperm, hsort⟩ := quickLoop_spec cmp (2 * s.length) (s.length + 1) s
    [(0, (s.length : ℤ) - 1)] (by simp; omega) (by simp [weight]; omega) (by simp [weight])
  refine ⟨l', arr, hl', hperm, fun hcmp => hsort hcmp (List.pairwise_singleton _ _)
    (orderedOutside_whole _ s), ?_⟩
  rw [sorterQuick, hsnap]
  dsimp only
  rw [if_neg (by omega), Int.toNat_natCast]
  simp only [Allocator.alloc, Allocator.skip, ha₁, Nat.zero_add]
  rw [show [((s.length : ℕ) : ℤ) - 1, 0] = stackOf [(0, (s.length : ℤ) - 1)] from rfl, hloop]
  rfl

/-- **`sorter_merge` sorts the buffer by halving.** -/
theorem sorterMerge_spec (hM : ReadsSequence M Holds) (cmp : Option α → Option α → ℤ) {l : σ}
    {s : List (Option α)} (h : Holds l s) (hlen : 2 ≤ s.length) {a : Allocator}
    (ha : ∀ i < 2, a.outcome i = true) :
    ∃ l', Holds l' s ∧ sorterMerge M cmp l a =
      listReplaceWith M l' (sortHalves (goesFirst cmp) s) (a.skip 2) := by
  obtain ⟨harr, hl'⟩ := getAll_spec hM (n := s.length) (i := 0) h (Nat.zero_add _)
  rw [List.drop_zero] at harr
  have ha₀ : a.outcome 0 = true := ha 0 (by decide)
  have ha₁ : a.outcome 1 = true := ha 1 (by decide)
  obtain ⟨tmp, hsort, -⟩ := mergeSortRecursive_spec cmp (s.length + 1) [] s []
    (.replicate s.length none) (by simp) (Nat.lt_succ_self _)
  simp only [List.nil_append, List.append_nil, List.length_nil, Nat.zero_add,
    Nat.cast_zero] at hsort
  refine ⟨_, hl', ?_⟩
  simp only [sorterMerge, hM.size_eq h, Allocator.alloc, ha₀, ha₁]
  rw [if_neg (by omega), Int.toNat_natCast, harr, hsort]
  rfl

namespace SorterCall

/-- Nothing happens to a list that is too short, or for which there is no buffer. -/
theorem run_early (hM : ReadsSequence M Holds) (c : SorterCall α) {l : σ} {s : List (Option α)}
    (h : Holds l s) {a : Allocator}
    (hearly : s.length < 2 ∨ ∃ i < c.scratch, a.outcome i = false) :
    ∃ l' a', c.run M l a = some (l', a') ∧ Holds l' s := by
  have hsize := hM.size_eq h
  cases c with
  | quick cmp =>
    by_cases hsnapshot : s.length < 2 ∨ a.outcome 0 = false
    · obtain ⟨arr, l', a', hsnap, hl', hnone⟩ := listSnapshot_early hM h hsnapshot
      refine ⟨l', a', ?_, hl'⟩
      rw [run, sorterQuick, hsnap]
      rcases hnone with hlen | rfl
      · exact if_pos (by omega)
      · exact ite_self _
    · obtain ⟨hlen, ha⟩ := not_or.mp hsnapshot
      rw [Bool.not_eq_false] at ha
      have ha₁ := outcome_one_of_scratch (hearly.resolve_left hlen) ha
      obtain ⟨l', hsnap, hl'⟩ := listSnapshot_ok hM h (by omega) ha
      refine ⟨l', (a.skip 1).alloc.2, ?_, hl'⟩
      rw [run, sorterQuick, hsnap]
      dsimp only
      rw [if_neg (by omega)]
      simp only [Allocator.alloc, Allocator.skip, Nat.zero_add, ha₁]
      rfl
  | merge cmp =>
    rw [run, sorterMerge, hsize]
    by_cases hlen : s.length < 2
    · exact ⟨l, a, if_pos (by omega), h⟩
    · have hscratch := hearly.resolve_left hlen
      rw [if_neg (by omega)]
      cases ha : a.outcome 0 with
      | false =>
        refine ⟨l, a.alloc.2, ?_, h⟩
        simp only [Allocator.alloc, ha]
        rfl
      | true =>
        have ha₁ := outcome_one_of_scratch hscratch ha
        refine ⟨l, a.alloc.2.alloc.2, ?_, h⟩
        simp only [Allocator.alloc, ha, ha₁]
        rfl
  | shuffle rand =>
    obtain ⟨arr, l', a', hsnap, hl', hnone⟩ :=
      listSnapshot_early hM h (hearly.imp_right outcome_zero_of_scratch)
    refine ⟨l', a', ?_, hl'⟩
    rw [run, collectionsShuffle, hsnap]
    rcases hnone with hlen | rfl
    · exact if_pos (by omega)
    · exact ite_self _
  | reverse =>
    obtain ⟨arr, l', a', hsnap, hl', hnone⟩ :=
      listSnapshot_early hM h (hearly.imp_right outcome_zero_of_scratch)
    refine ⟨l', a', ?_, hl'⟩
    rw [run, collectionsReverse, hsnap]
    rcases hnone with hlen | rfl
    · exact if_pos (by omega)
    · exact ite_self _

/-- **A call permutes the buffer** and writes it back. -/
theorem run_spec (hM : ReadsSequence M Holds) (c : SorterCall α) {l : σ} {s : List (Option α)}
    (h : Holds l s) (hlen : 2 ≤ s.length) {a : Allocator}
    (ha : ∀ i < c.scratch, a.outcome i = true) :
    ∃ l' arr, Holds l' s ∧ arr.Perm s ∧
      c.run M l a = listReplaceWith M l' arr (a.skip c.scratch) := by
  have ha₀ : a.outcome 0 = true := ha 0 (by cases c <;> simp [scratch])
  have hge : ¬((s.length : ℕ) : ℤ) < 2 := by omega
  cases c with
  | quick cmp =>
    obtain ⟨l', arr, hl', hperm, -, hrun⟩ := sorterQuick_spec hM cmp h hlen ha
    exact ⟨l', arr, hl', hperm, hrun⟩
  | merge cmp =>
    obtain ⟨l', hl', hrun⟩ := sorterMerge_spec hM cmp h hlen ha
    exact ⟨l', _, hl', sortHalves_perm (goesFirst cmp) s, hrun⟩
  | shuffle rand =>
    obtain ⟨l', hsnap, hl'⟩ := listSnapshot_ok hM h (by omega) ha₀
    obtain ⟨arr, hloop, hperm⟩ := shuffleLoop_spec rand (i := s.length - 1) s (by omega)
    refine ⟨l', arr, hl', hperm, ?_⟩
    rw [run, collectionsShuffle, hsnap]
    dsimp only
    rw [if_neg hge, show (((s.length : ℕ) : ℤ) - 1).toNat = s.length - 1 by omega, hloop]
    rfl
  | reverse =>
    obtain ⟨l', hsnap, hl'⟩ := listSnapshot_ok hM h (by omega) ha₀
    obtain ⟨arr, hloop, hperm⟩ := reverseLoop_spec (s.length + 1) s (i := 0)
      (j := (s.length : ℤ) - 1) (le_refl _) (by omega) (by omega)
    refine ⟨l', arr, hl', hperm, ?_⟩
    rw [run, collectionsReverse, hsnap]
    dsimp only
    rw [if_neg hge, Int.toNat_natCast, hloop]
    rfl

end SorterCall

/-! ## Writing back to an array list -/

theorem arrayList_reads : ReadsSequence (arrayListMethods (α := α)) fun l s => l.items = s where
  size_eq := by
    rintro l _ rfl
    rfl
  get_eq := by
    rintro l _ i rfl hi
    refine ⟨?_, rfl⟩
    simp only [arrayListMethods, ArrayList.get]
    rw [if_neg (by omega), Int.toNat_natCast]

/-- The array is as large as it was, so filling it again asks for no memory. -/
theorem insertAll_arrayList : ∀ (arr : List (Option α)) {l : ArrayList (Option α)} {a : Allocator},
    l.items.length + arr.length ≤ l.capacity →
    ∃ l', insertAll arrayListMethods arr l.items.length l a = some (l', a) ∧
      l'.items = l.items ++ arr
  | [], l, a, _ => ⟨l, rfl, (List.append_nil _).symm⟩
  | x :: arr, l, a, hroom => by
    rw [List.length_cons] at hroom
    have hinsert : ∃ m : ArrayList (Option α),
        l.insert x l.items.length a = (.success, m, a) ∧ m.items = l.items ++ [x] ∧
          m.capacity = l.capacity := by
      rw [ArrayList.insert, if_neg (by omega), ArrayList.ensureCapacity, dif_neg (by omega)]
      exact ⟨_, rfl, List.insertIdx_length_self, rfl⟩
    obtain ⟨m, hinsert, hitems, hcap⟩ := hinsert
    have hlen : m.items.length = l.items.length + 1 := by rw [hitems, List.length_append]; rfl
    obtain ⟨l', hrest, hitems'⟩ := insertAll_arrayList arr (l := m) (a := a) (by omega)
    refine ⟨l', ?_, by rw [hitems', hitems, List.append_assoc]; rfl⟩
    rw [insertAll]
    simp only [arrayListMethods, hinsert, Option.bind_some]
    rw [← hlen]
    exact hrest

/-- **An array list keeps its items**, whatever fails. -/
theorem arrayList_keeps (c : SorterCall α) (l : ArrayList (Option α)) (a : Allocator) :
    ∃ l' a', c.run arrayListMethods l a = some (l', a') ∧ l'.items.Perm l.items := by
  by_cases hearly : l.items.length < 2 ∨ ∃ i < c.scratch, a.outcome i = false
  · obtain ⟨l', a', hrun, hl'⟩ := c.run_early arrayList_reads rfl hearly
    exact ⟨l', a', hrun, .of_eq hl'⟩
  · obtain ⟨hlen, hscratch⟩ := not_or.mp hearly
    obtain ⟨l', arr, hl', hperm, hrun⟩ := c.run_spec arrayList_reads rfl (not_lt.mp hlen)
      fun i hi => by
        by_contra hfalse
        exact hscratch ⟨i, hi, Bool.eq_false_iff.mpr hfalse⟩
    have hlen' := hperm.length_eq
    have hcap := l'.size_le
    rw [← hl'] at hlen'
    obtain ⟨l'', hwrite, hitems⟩ := insertAll_arrayList arr (l := l'.clear)
      (a := a.skip c.scratch) (by rw [ArrayList.clear, List.length_nil]; dsimp only; omega)
    refine ⟨l'', a.skip c.scratch, hrun.trans hwrite, ?_⟩
    rw [hitems]
    exact hperm

/-! ## Writing back to a linked list

The nodes were freed by `clear`, so as many are asked for as there are items. -/

theorem linkedList_reads : ReadsSequence (linkedListMethods (α := α))
    fun l s => ∃ nodes, Describes l nodes s where
  size_eq := fun ⟨_, h⟩ => h.size_eq
  get_eq := by
    rintro l s i ⟨nodes, h⟩ hi
    obtain ⟨hitem, hget⟩ := h.get (show 0 ≤ (i : ℤ) by omega) (by omega)
    exact ⟨hitem, nodes, hget⟩

/-- How many of the next allocations succeed before one fails. -/
def successes : ℕ → Allocator → ℕ
  | 0, _ => 0
  | n + 1, a => if a.outcome 0 then successes n (a.skip 1) + 1 else 0

theorem successes_eq_iff : ∀ {n : ℕ} {a : Allocator},
    n ≤ successes n a ↔ ∀ i < n, a.outcome i = true
  | 0, _ => by simp
  | n + 1, a => by
    have ih := successes_eq_iff (n := n) (a := a.skip 1)
    rw [successes]
    split
    · next h₀ =>
      rw [Nat.add_le_add_iff_right, ih]
      constructor
      · intro hrest i hi
        cases i with
        | zero => exact h₀
        | succ i => exact hrest i (by omega)
      · exact fun hall i hi => hall (i + 1) (by omega)
    · next h₀ => exact iff_of_false (by omega) fun hall => h₀ (hall 0 (by omega))

/-- Behind a gap, nothing can be inserted. -/
theorem insertAll_outOfRange : ∀ {arr : List (Option α)} {i : ℕ} {l : LinkedList α} {a : Allocator},
    l.size < i → insertAll linkedListMethods arr i l a = some (l, a)
  | [], _, _, _, _ => rfl
  | x :: arr, i, l, a, hi => by
    have hinsert : l.insert x i a = some (.errorIndexOutOfBounds, l, a) := by
      rw [LinkedList.insert, if_pos (.inr hi)]
    rw [insertAll]
    simp only [linkedListMethods, hinsert, Option.bind_some]
    exact insertAll_outOfRange (by omega)

/-- Filling a linked list stops at the first node that is not to be had. -/
theorem insertAll_linkedList : ∀ (arr : List (Option α)) {l : LinkedList α} {nodes : List ℕ}
    {items : List (Option α)} {a : Allocator}, Describes l nodes items →
    items.length + arr.length ≤ intMax →
    ∃ l' a' nodes', insertAll linkedListMethods arr items.length l a = some (l', a') ∧
      Describes l' nodes' (items ++ arr.take (successes arr.length a))
  | [], l, nodes, items, a, h, _ => ⟨l, a, nodes, rfl, by simpa using h⟩
  | x :: arr, l, nodes, items, a, h, hmax => by
    rw [List.length_cons] at hmax
    rw [List.length_cons, successes, insertAll]
    cases ha : a.outcome 0 with
    | false =>
      have hinsert := h.insert_of_noAlloc x (show 0 ≤ (items.length : ℤ) by omega) (by omega) ha
      have hsize := h.size_eq
      refine ⟨l, a.skip 1, nodes, ?_, by simpa using h⟩
      simp only [linkedListMethods, hinsert, Option.bind_some]
      exact insertAll_outOfRange (by omega)
    | true =>
      obtain ⟨nodes', m, hinsert, hdesc⟩ :=
        h.insert_of_alloc x (show 0 ≤ (items.length : ℤ) by omega) (by omega) (by omega) ha
      rw [Int.toNat_natCast, List.insertIdx_length_self] at hdesc
      obtain ⟨l', a', nodes'', hrest, hdesc'⟩ :=
        insertAll_linkedList arr (a := a.skip 1) hdesc (by simp; omega)
      refine ⟨l', a', nodes'', ?_, ?_⟩
      · simp only [linkedListMethods, hinsert, Option.bind_some]
        rw [List.length_append] at hrest
        exact hrest
      · rw [if_pos rfl, List.take_succ_cons]
        simpa using hdesc'

/-- All of the items survive in a linked list: it was left alone, or every node was to be had. -/
def WritesBack (c : SorterCall α) (n : ℕ) (a : Allocator) : Prop :=
  n < 2 ∨ (∃ i < c.scratch, a.outcome i = false) ∨ ∀ i < n, (a.skip c.scratch).outcome i = true

/-- **When a linked list keeps its items.** -/
theorem linkedList_keeps_iff (c : SorterCall α) {l : LinkedList α} {nodes : List ℕ}
    {items : List (Option α)} (h : Describes l nodes items) (hmax : items.length ≤ intMax)
    (a : Allocator) : ∃ l' a' nodes' items', c.run linkedListMethods l a = some (l', a') ∧
      Describes l' nodes' items' ∧ (items'.Perm items ↔ WritesBack c items.length a) := by
  by_cases hearly : items.length < 2 ∨ ∃ i < c.scratch, a.outcome i = false
  · obtain ⟨l', a', hrun, nodes', hl'⟩ := c.run_early linkedList_reads ⟨nodes, h⟩ hearly
    exact ⟨l', a', nodes', items, hrun, hl', iff_of_true (.refl _) (or_assoc.mp (.inl hearly))⟩
  · obtain ⟨hlen, hscratch⟩ := not_or.mp hearly
    obtain ⟨l₁, arr, -, hperm, hrun⟩ := c.run_spec linkedList_reads ⟨nodes, h⟩ (not_lt.mp hlen)
      fun i hi => by
        by_contra hfalse
        exact hscratch ⟨i, hi, Bool.eq_false_iff.mpr hfalse⟩
    have harr := hperm.length_eq
    obtain ⟨l', a', nodes', hwrite, hdesc⟩ := insertAll_linkedList arr
      (a := a.skip c.scratch) (LinkedList.describes_clear l₁) (by rw [List.length_nil]; omega)
    refine ⟨l', a', nodes', _, hrun.trans hwrite, hdesc, ?_⟩
    rw [List.nil_append, harr, WritesBack, or_iff_right hlen, or_iff_right hscratch,
      ← successes_eq_iff]
    constructor
    · intro hall
      have hall := hall.length_eq
      rw [List.length_take] at hall
      omega
    · intro hall
      rwa [List.take_of_length_le (by omega)]

/-- **When the items survive**: in an array list always, in a linked list exactly when it is left
alone or every node it is filled with can be allocated. -/
theorem sorter_keeps_iff (c : SorterCall α) (a : Allocator) :
    (∀ l : ArrayList (Option α), ∃ l' a', c.run arrayListMethods l a = some (l', a') ∧
      l'.items.Perm l.items) ∧
    ∀ l : LinkedList α, l.Built → ∃ nodes items, Describes l nodes items ∧
      ∃ l' a' nodes' items', c.run linkedListMethods l a = some (l', a') ∧
        Describes l' nodes' items' ∧ (items'.Perm items ↔ WritesBack c items.length a) := by
  refine ⟨fun l => arrayList_keeps c l a, fun l hl => ?_⟩
  obtain ⟨nodes, items, h, hmax⟩ := hl.describes
  exact ⟨nodes, items, h, linkedList_keeps_iff c h hmax a⟩

/-- Two insertions into a new linked list. -/
theorem exists_two : ∃ l : LinkedList ℕ, l.Built ∧
    ∃ nodes, Describes l nodes [some 1, some 2] := by
  obtain ⟨l, hcreate, h⟩ := LinkedList.create_describes (α := ℕ)
  obtain ⟨nodes₁, l₁, hinsert₁, h₁⟩ := h.insert (some 1) (show (0 : ℤ) ≤ 0 by decide) (by decide)
    (by decide)
  obtain ⟨nodes₂, l₂, hinsert₂, h₂⟩ := h₁.insert (some 2) (show (0 : ℤ) ≤ 1 by decide) (by decide)
    (by decide)
  have hsize := h.size_eq
  have hsize₁ := h₁.size_eq
  have hbuilt₁ : l₁.Built := by
    refine .step (c := .insert (some 1) 0) (.create hcreate) (fun _ _ _ => ?_) (by
      rw [LinkedList.step, hinsert₁]
      rfl)
    rw [hsize]
    decide
  refine ⟨l₂, .step (c := .insert (some 2) 1) hbuilt₁ (fun _ _ _ => ?_) (by
    rw [LinkedList.step, hinsert₂]
    rfl), nodes₂, h₂⟩
  rw [hsize₁]
  decide

theorem sorter_keeps_iff_two : ∃ l : LinkedList ℕ, l.Built ∧
    ∃ nodes items, Describes l nodes items ∧
      ∃ l' a' nodes' items', SorterCall.reverse.run linkedListMethods l .always = some (l', a') ∧
        Describes l' nodes' items' ∧
        (items'.Perm items ↔ WritesBack (.reverse : SorterCall ℕ) items.length .always) := by
  obtain ⟨l, hl, -⟩ := exists_two
  exact ⟨l, hl, (sorter_keeps_iff .reverse .always).2 l hl⟩

/-- The second node is not to be had: an item is lost. -/
theorem sorter_loses : ∃ l : LinkedList ℕ, l.Built ∧ (∃ nodes, Describes l nodes [some 1, some 2]) ∧
    ∃ l' a' nodes' items', SorterCall.reverse.run linkedListMethods l
        ⟨fun k => k ≠ 2⟩ = some (l', a') ∧
      Describes l' nodes' items' ∧ ¬items'.Perm [some 1, some 2] := by
  obtain ⟨l, hl, nodes, h⟩ := exists_two
  obtain ⟨l', a', nodes', items', hrun, hdesc, hiff⟩ :=
    linkedList_keeps_iff .reverse h (by decide) ⟨fun k => k ≠ 2⟩
  refine ⟨l, hl, ⟨nodes, h⟩, l', a', nodes', items', hrun, hdesc, fun hperm => ?_⟩
  rcases hiff.mp hperm with hlen | ⟨i, hi, hfalse⟩ | hall
  · exact absurd hlen (by decide)
  · have hi : i < 1 := hi
    rw [Nat.lt_one_iff.mp hi] at hfalse
    exact absurd hfalse (by decide)
  · exact absurd (hall 1 (by decide)) (by decide)

end Sorter

end OvaLib
