import OvaLib.Sorter.QuickSort

/-!
# Swapping two positions

`sorter_swap` reads two items, and puts each into the place of the other: it removes what is there
and inserts. What the calls return is not looked at. An index that is out of range reads `NULL`, and
the call that removes there does nothing, but the one that inserts appends if the index is the size
of the list.

## When that is a swap

Two indices in range are swapped, and two equal ones leave the list alone. If one index is in range
and the other is neither in range nor the size, the item at the first gives way to the `NULL` that
was read for the second, and is lost unless it was `NULL` too. If neither is in range and nothing is
appended, the list stays as it is. `SwapSafe` is this case distinction. The size moves during the
call, since the first insertion may have appended, and the second pair of calls then finds another
list than the first.

## Implementation notes

Both kinds of list that take an index behave the same here, and the proof is done once: `Holding`
says of a list of either type that it holds a sequence, and each step of the call is a step on the
sequence.

## Main results

* `replaceAt_spec` — one removal and one insertion
* `sorterSwap_spec` — the list after `sorter_swap`
* `sorterSwap_iff` — when it is what the method is for
-/

namespace OvaLib

namespace Sorter

open Foundation ListObject

variable {α : Type*}

/-! ## The model -/

section

variable (cmp : Option α → Option α → ℤ)

/-- `lst->remove(lst, index)` and `lst->insert(lst, item, index)`. -/
def replaceAt (lst : ListObject α) (item : Option α) (index : ℤ) (a : Allocator) :
    Option (ListObject α × Allocator) :=
  let (_, lst) := lst.remove index
  (lst.insert cmp item index a).map fun (_, lst, a) => (lst, a)

/-- `sorter_swap`. -/
def sorterSwap (lst : ListObject α) (index1 index2 : ℤ) (a : Allocator) :
    Option (ListObject α × Allocator) :=
  if index1 = index2 then some (lst, a)
  else
    let (temp1, lst) := lst.get index1
    let (temp2, lst) := lst.get index2
    (replaceAt cmp lst temp2 index1 a).bind fun (lst, a) => replaceAt cmp lst temp1 index2 a

end

/-! ## A list that takes an index

An array list without slots takes no item, and a list of `INT_MAX` items takes one only if it is
linked. `TakesMore` keeps these apart. -/

variable {cmp : Option α → Option α → ℤ} {type : ListType} {l : ListObject α}
  {s : List (Option α)}

/-- A list of this type holds the items, and an array list has slots. -/
structure Holding (type : ListType) (l : ListObject α) (s : List (Option α)) : Prop where
  holds : l.Holds ListObject.allEqual s
  type_eq : l.type = type
  takesIndex : type ≠ .sortedList
  hasSlots : ∀ impl, l = .array impl → 0 < impl.capacity
  length_le : s.length ≤ intMax

variable (cmp) in
/-- **A call of such a list** is a call of the sequence. -/
theorem Holding.step (h : Holding type l s) (c : ListCall α)
    (hfits : (Sequence.step s c).2.length ≤ intMax) :
    ∃ l', l.step cmp .always c = some ((Sequence.step s c).1, l', .always) ∧
      Holding type l' (Sequence.step s c).2 := by
  obtain ⟨hholds, rfl, htype, hslots, -⟩ := h
  cases l with
  | sorted impl => exact absurd rfl htype
  | array impl =>
    have himpl : impl.Holds s := ⟨hholds, hslots impl rfl⟩
    obtain ⟨impl', hstep, hitems, hpos⟩ := ArrayList.step_refines himpl c hfits
    refine ⟨array impl', ?_, hitems, rfl, htype, fun m hm => by cases hm; exact hpos, hfits⟩
    have harray : (array impl).step cmp .always c = some ((impl.step .always c).1,
        array (impl.step .always c).2.1, (impl.step .always c).2.2) := by
      cases c <;> rfl
    rw [harray, hstep]
  | linked impl =>
    obtain ⟨nodes, hdesc⟩ := hholds
    obtain ⟨nodes', impl', hstep, hdesc'⟩ := LinkedList.step_refines hdesc c hfits
    refine ⟨linked impl', ?_, ⟨nodes', hdesc'⟩, rfl, htype, fun m hm => (nomatch hm), hfits⟩
    rw [step_linked, hstep]
    rfl

/-- What `get` reads. -/
def itemAt (s : List (Option α)) (index : ℤ) : Option α :=
  if 0 ≤ index ∧ index < s.length then s[index.toNat]?.join else none

theorem Holding.get (h : Holding type l s) (index : ℤ) :
    (l.get index).1 = itemAt s index ∧ Holding type (l.get index).2 s := by
  have hstate : (Sequence.step s (.get index)).2 = s := by
    rw [Sequence.step]
    split <;> rfl
  obtain ⟨l', hstep, hl'⟩ := h.step ListObject.allEqual (.get index) (by
    rw [hstate]
    exact h.length_le)
  rw [hstate] at hl'
  obtain ⟨hitem, rfl, -⟩ : ListResult.item (l.get index).1 = (Sequence.step s (.get index)).1 ∧
      (l.get index).2 = l' ∧ Allocator.always = .always := by simpa [ListObject.step] using hstep
  refine ⟨?_, hl'⟩
  rw [Sequence.step, itemAt] at *
  split at hitem
  · next hin => rw [if_pos hin]; exact ListResult.item.inj hitem
  · next hout => rw [if_neg hout]; exact ListResult.item.inj hitem

/-- A removal, followed by an insertion. -/
theorem replaceAt_eq {l₁ l₂ : ListObject α} {r₁ r₂ : ListResult α} {a' : Allocator}
    {item : Option α} {index : ℤ} (hremove : l.step cmp .always (.remove index) =
      some (r₁, l₁, .always))
    (hinsert : l₁.step cmp .always (.insert item index) = some (r₂, l₂, a')) :
    replaceAt cmp l item index .always = some (l₂, a') := by
  have hl₁ : (l.remove index).2 = l₁ := (Prod.mk.inj (Prod.mk.inj (Option.some.inj hremove)).2).1
  obtain ⟨⟨e, m, b⟩, hcall, hpair⟩ := Option.map_eq_some_iff.mp hinsert
  obtain ⟨-, hm⟩ := Prod.mk.inj hpair
  rw [replaceAt]
  dsimp only
  rw [hl₁, hcall, Option.map_some, ← hm]

/-- An insertion at the end of a list of this type and length adds an item. -/
def TakesMore (type : ListType) (n : ℤ) : Prop := type = .linkedList ∨ n < intMax

/-- The list has more items than it had, or counted past `INT_MAX`. -/
def Grown (type : ListType) (n : ℕ) (l : ListObject α) : Prop :=
  l.Wrapped ∨ ∃ t, Holding type l t ∧ n < t.length

/-- **A replacement** in a list is one in the sequence. -/
theorem Holding.replaceAt (h : Holding type l s) {item : Option α} {index : ℤ}
    {t : List (Option α)} (ht : (Sequence.step (Sequence.step s (.remove index)).2
      (.insert item index)).2 = t) (hmax : t.length ≤ intMax) :
    ∃ l', replaceAt cmp l item index .always = some (l', .always) ∧ Holding type l' t := by
  have hremove : (Sequence.step s (.remove index)).2.length ≤ intMax := by
    have hle := h.length_le
    rw [Sequence.step]
    split
    · exact (List.length_eraseIdx_le _ _).trans hle
    · exact hle
  obtain ⟨l₁, hstep₁, h₁⟩ := h.step cmp (.remove index) hremove
  obtain ⟨l₂, hstep₂, h₂⟩ := h₁.step cmp (.insert item index) (ht ▸ hmax)
  exact ⟨l₂, replaceAt_eq hstep₁ hstep₂, ht ▸ h₂⟩

/-- **In range**: the item is replaced. -/
theorem Holding.replaceAt_mem (h : Holding type l s) (item : Option α) {index : ℤ}
    (hlow : 0 ≤ index) (hhigh : index < s.length) :
    ∃ l', Sorter.replaceAt cmp l item index .always = some (l', .always) ∧
      Holding type l' (s.set index.toNat item) := by
  refine h.replaceAt ?_ (by rw [List.length_set]; exact h.length_le)
  have hremove : (Sequence.step s (.remove index)).2 = s.eraseIdx index.toNat := by
    rw [Sequence.step, if_pos ⟨hlow, hhigh⟩]
  have hlen := List.length_eraseIdx_of_lt (show index.toNat < s.length by omega)
  rw [hremove, Sequence.step, if_pos ⟨hlow, by omega⟩]
  exact List.insertIdx_eraseIdx_self (by omega) item

/-- Out of range, nothing is removed. -/
theorem step_remove_out {index : ℤ} (hout : index < 0 ∨ s.length ≤ index) :
    (Sequence.step s (.remove index)).2 = s := by
  rw [Sequence.step, if_neg (by omega)]

/-- **Out of range**, and not at the end: nothing happens. -/
theorem Holding.replaceAt_out (h : Holding type l s) (item : Option α) {index : ℤ}
    (hout : index < 0 ∨ s.length < index) :
    ∃ l', Sorter.replaceAt cmp l item index .always = some (l', .always) ∧ Holding type l' s := by
  refine h.replaceAt ?_ h.length_le
  rw [step_remove_out (by omega), Sequence.step, if_neg (by omega)]

/-- **At the end**: the item is appended. -/
theorem Holding.replaceAt_end (h : Holding type l s) (item : Option α)
    (hmax : s.length < intMax) :
    ∃ l', Sorter.replaceAt cmp l item s.length .always = some (l', .always) ∧
      Holding type l' (s ++ [item]) := by
  refine h.replaceAt ?_ (by rw [List.length_append]; exact hmax)
  rw [step_remove_out (by omega), Sequence.step, if_pos ⟨by omega, by omega⟩, Int.toNat_natCast]
  exact List.insertIdx_length_self

/-- At the end of `INT_MAX` items an array list stays as it is, and a linked list counts too far. -/
theorem Holding.replaceAt_full (h : Holding type l s) (item : Option α)
    (hmax : s.length = intMax) :
    ∃ l', Sorter.replaceAt cmp l item s.length .always = some (l', .always) ∧
      ((type ≠ .linkedList ∧ l' = l) ∨ (type = .linkedList ∧ l'.Wrapped)) := by
  obtain ⟨hholds, rfl, htype, hslots, -⟩ := h
  cases l with
  | sorted impl => exact absurd rfl htype
  | array impl =>
    obtain rfl : impl.items = s := hholds
    have hinsert : (impl.insert item impl.items.length .always).2 = (impl, .always) :=
      (Prod.mk.inj (ArrayList.insert_full hmax item (Int.natCast_nonneg impl.items.length)
        (by omega) .always)).2
    refine ⟨array impl, ?_, .inl ⟨fun heq => (nomatch heq), rfl⟩⟩
    rw [Sorter.replaceAt, ListObject.remove, ArrayList.remove, if_pos (by omega)]
    show some (array (impl.insert item impl.items.length .always).2.1,
      (impl.insert item impl.items.length .always).2.2) = _
    rw [hinsert]
  | linked impl =>
    obtain ⟨nodes, hdesc⟩ := hholds
    have hsize := hdesc.size_eq
    obtain ⟨nodes', impl', hinsert, hcount, hchains⟩ :=
      hdesc.insert_chains item (Int.natCast_nonneg s.length) (Int.le_refl _) (a := .always) rfl
    refine ⟨linked impl', ?_, .inr ⟨rfl, ?_, nodes', _, hchains⟩⟩
    · rw [Sorter.replaceAt, ListObject.remove, LinkedList.remove, if_pos (by omega)]
      dsimp only
      rw [ListObject.insert, hinsert]
      rfl
    · rw [hmax] at hcount
      exact hcount

theorem replaceAt_wrapped (hwrap : l.Wrapped) (item : Option α) (index : ℤ) :
    replaceAt cmp l item index .always = some (l, .always) := by
  cases l with
  | array impl => exact hwrap.elim
  | sorted impl => exact hwrap.elim
  | linked impl =>
    have hsize : impl.size = -2147483648 := hwrap.1
    rw [replaceAt, ListObject.remove, LinkedList.remove, if_pos (by omega)]
    dsimp only
    rw [ListObject.insert, LinkedList.insert, if_pos (by omega)]
    rfl

/-- The sequence after a replacement that does not append. -/
def put (s : List (Option α)) (item : Option α) (index : ℤ) : List (Option α) :=
  if 0 ≤ index ∧ index < s.length then s.set index.toNat item else s

@[simp] theorem length_put (item : Option α) (index : ℤ) :
    (put s item index).length = s.length := by
  rw [put]
  split
  · exact List.length_set
  · rfl

/-- An insertion at the index appends. -/
def Appends (type : ListType) (n index : ℤ) : Prop := 0 ≤ n ∧ index = n ∧ TakesMore type n

variable (cmp) in
/-- **A replacement** of an item, which appends at the end. -/
theorem replaceAt_spec (h : Holding type l s) (item : Option α) (index : ℤ) :
    ∃ l', replaceAt cmp l item index .always = some (l', .always) ∧
      (Appends type s.length index → Grown type s.length l') ∧
      (¬Appends type s.length index → Holding type l' (put s item index)) := by
  by_cases hin : 0 ≤ index ∧ index < s.length
  · obtain ⟨l', hrun, hl'⟩ := h.replaceAt_mem item hin.1 hin.2
    refine ⟨l', hrun, fun happ => ?_, fun _ => ?_⟩
    · have heq := happ.2.1
      omega
    · rwa [put, if_pos hin]
  rw [put, if_neg hin]
  by_cases hend : index = s.length
  · subst hend
    rcases Nat.lt_or_eq_of_le h.length_le with hlt | hfull
    · obtain ⟨l', hrun, hl'⟩ := h.replaceAt_end item hlt
      refine ⟨l', hrun, fun _ => .inr ⟨_, hl', ?_⟩, fun hno => ?_⟩
      · rw [List.length_append, List.length_singleton]
        exact Nat.lt_succ_self _
      · exact absurd ⟨Int.natCast_nonneg _, rfl, .inr (Int.ofNat_lt.mpr hlt)⟩ hno
    · obtain ⟨l', hrun, hcase⟩ := h.replaceAt_full item hfull
      refine ⟨l', hrun, fun happ => ?_, fun hno => ?_⟩
      · rcases hcase with ⟨hne, -⟩ | ⟨-, hwrap⟩
        · exact absurd happ.2.2 (not_or.mpr ⟨hne, by omega⟩)
        · exact .inl hwrap
      · rcases hcase with ⟨-, rfl⟩ | ⟨htype, -⟩
        · exact h
        · exact absurd ⟨Int.natCast_nonneg _, rfl, .inl htype⟩ hno
  · obtain ⟨l', hrun, hl'⟩ := h.replaceAt_out item (show index < 0 ∨ s.length < index by omega)
    exact ⟨l', hrun, fun happ => absurd happ.2.1 hend, fun _ => hl'⟩

variable (cmp) in
/-- Replacements never take an item away. -/
theorem Grown.replaceAt {n : ℕ} (h : Grown type n l) (item : Option α) (index : ℤ) :
    ∃ l', replaceAt cmp l item index .always = some (l', .always) ∧ Grown type n l' := by
  rcases h with hwrap | ⟨t, ht, hlt⟩
  · exact ⟨l, replaceAt_wrapped hwrap item index, .inl hwrap⟩
  · obtain ⟨l', hrun, happ, hput⟩ := replaceAt_spec cmp ht item index
    refine ⟨l', hrun, ?_⟩
    by_cases hend : Appends type t.length index
    · exact (happ hend).imp_right fun ⟨u, hu, hlt'⟩ => ⟨u, hu, hlt.trans hlt'⟩
    · exact .inr ⟨_, hput hend, by rwa [length_put]⟩

variable (cmp) in
/-- **The list after `sorter_swap`** with two different indices. -/
theorem sorterSwap_spec (h : Holding type l s) {i j : ℤ} (hne : i ≠ j) :
    ∃ l', sorterSwap cmp l i j .always = some (l', .always) ∧
      (Appends type s.length i ∨ Appends type s.length j → Grown type s.length l') ∧
      (¬(Appends type s.length i ∨ Appends type s.length j) →
        Holding type l' (put (put s (itemAt s j) i) (itemAt s i) j)) := by
  obtain ⟨hi, h₁⟩ := h.get i
  obtain ⟨hj, h₂⟩ := h₁.get j
  obtain ⟨l₃, hrun₃, happ₃, hput₃⟩ := replaceAt_spec cmp h₂ (itemAt s j) i
  have hstart : sorterSwap cmp l i j .always =
      (replaceAt cmp ((l.get i).2.get j).2 (itemAt s j) i .always).bind fun (lst, a) =>
        replaceAt cmp lst (itemAt s i) j a := by
    rw [sorterSwap, if_neg hne]
    dsimp only
    rw [hi, hj]
  rw [hstart, hrun₃, Option.bind_some]
  dsimp only
  by_cases hend : Appends type s.length i
  · obtain ⟨l', hrun, hgrown⟩ := (happ₃ hend).replaceAt cmp (itemAt s i) j
    exact ⟨l', hrun, fun _ => hgrown, fun hno => absurd (.inl hend) hno⟩
  · obtain ⟨l', hrun, happ, hput⟩ := replaceAt_spec cmp (hput₃ hend) (itemAt s i) j
    rw [length_put] at happ hput
    refine ⟨l', hrun, fun hor => happ (hor.resolve_left hend), fun hno => hput ?_⟩
    exact (not_or.mp hno).2

/-! ## When positions are swapped

Both directions are by the cases of the two indices. -/

/-- An index of the list. -/
def InRange (l : ListObject α) (index : ℤ) : Prop := 0 ≤ index ∧ index < l.size

/-- What `sorter_swap` is for: it exchanges two positions of the list, and an index out of range
leaves the list as it is. -/
def SwapsPositions (cmp : Option α → Option α → ℤ) (l : ListObject α) (i j : ℤ) : Prop :=
  ∃ s l' a' s', l.Contents s ∧ sorterSwap cmp l i j .always = some (l', a') ∧ l'.Contents s' ∧
    l'.size = l.size ∧
    (InRange l i ∧ InRange l j → ∀ k, s'[k]? = s[Equiv.swap i.toNat j.toNat k]?) ∧
    (¬(InRange l i ∧ InRange l j) → s' = s)

/-- The indices are the same or both in range, or else neither is where an insertion appends and one
that is in range reads `NULL`. -/
def SwapSafe (l : ListObject α) (i j : ℤ) : Prop :=
  i = j ∨ (InRange l i ∧ InRange l j) ∨
    ((¬Appends l.type l.size i ∧ ¬Appends l.type l.size j) ∧
      (InRange l i → (l.get i).1 = none) ∧ (InRange l j → (l.get j).1 = none))

theorem itemAt_of_mem {index : ℤ} (hlow : 0 ≤ index) (hi : index.toNat < s.length) :
    itemAt s index = s[index.toNat] := by
  rw [itemAt, if_pos ⟨hlow, by omega⟩, List.getElem?_eq_getElem hi, Option.join_some]

/-- Both indices in range. -/
theorem put_put_getElem? {i j : ℤ} (hi : 0 ≤ i) (hi' : i < s.length) (hj : 0 ≤ j)
    (hj' : j < s.length) (k : ℕ) :
    (put (put s (itemAt s j) i) (itemAt s i) j)[k]? = s[Equiv.swap i.toNat j.toNat k]? := by
  have hin : i.toNat < s.length := by omega
  have hjn : j.toNat < s.length := by omega
  rw [put, if_pos ⟨hj, by rwa [length_put]⟩, put, if_pos ⟨hi, hi'⟩, itemAt_of_mem hi hin,
    itemAt_of_mem hj hjn, Equiv.swap_apply_def, List.getElem?_set, List.length_set,
    List.getElem?_set]
  split_ifs with h₁ h₂ h₃ h₄ <;> grind

/-- A position that gets `NULL` must have had it. -/
theorem put_none_eq_iff {index : ℤ} :
    put s none index = s ↔ (0 ≤ index ∧ index < s.length → itemAt s index = none) := by
  rw [put]
  by_cases hin : 0 ≤ index ∧ index < s.length
  · have hi : index.toNat < s.length := by omega
    rw [if_pos hin, itemAt_of_mem hin.1 hi, forall_prop_of_true hin]
    constructor
    · intro hset
      have hread := congrArg (·[index.toNat]?) hset
      rw [List.getElem?_set_self hi, List.getElem?_eq_getElem hi] at hread
      exact (Option.some.inj hread).symm
    · intro hnone
      have hself := List.set_getElem_self hi
      rwa [hnone] at hself
  · rw [if_neg hin]
    exact iff_of_true rfl fun h => absurd h hin

/-- What `sorter_swap` does with indices that are not both in range, if it does not append. -/
theorem put_put_eq_iff {i j : ℤ}
    (hout : ¬((0 ≤ i ∧ i < s.length) ∧ (0 ≤ j ∧ j < s.length))) :
    put (put s (itemAt s j) i) (itemAt s i) j = s ↔
      (0 ≤ i ∧ i < s.length → itemAt s i = none) ∧ (0 ≤ j ∧ j < s.length → itemAt s j = none) := by
  by_cases hi : 0 ≤ i ∧ i < s.length
  · have hj : ¬(0 ≤ j ∧ j < s.length) := fun hj => hout ⟨hi, hj⟩
    have hread : itemAt s j = none := if_neg hj
    have hkeep : ∀ (t : List (Option α)) x, t.length = s.length → put t x j = t :=
      fun t x ht => if_neg (by rwa [ht])
    rw [hread, hkeep _ _ (length_put _ _), put_none_eq_iff, and_iff_left fun h => absurd h hj]
  · have hread : itemAt s i = none := if_neg hi
    have hkeep : put s (itemAt s j) i = s := if_neg hi
    rw [hkeep, hread, put_none_eq_iff, and_iff_right fun h => absurd h hi]

theorem Holding.inRange_iff (h : Holding type l s) {index : ℤ} :
    InRange l index ↔ 0 ≤ index ∧ index < s.length := by
  rw [InRange, h.holds.size_eq]

/-- A list that has grown is not what it was. -/
theorem Grown.size_ne {n : ℕ} (h : Grown type n l) : l.size ≠ n := by
  rcases h with hwrap | ⟨t, ht, hlt⟩
  · have hsize := hwrap.size_eq
    omega
  · rw [ht.holds.size_eq]
    omega

/-- A list that counts its items. -/
theorem swapsPositions_iff_of_holding (h : Holding type l s) (i j : ℤ) :
    SwapsPositions cmp l i j ↔ SwapSafe l i j := by
  have hsize := h.holds.size_eq
  have hshows := h.holds.contents
  by_cases heq : i = j
  · subst heq
    refine iff_of_true ⟨s, l, .always, s, hshows, if_pos rfl, hshows, rfl, fun _ k => ?_,
      fun _ => rfl⟩ (.inl rfl)
    rw [Equiv.swap_self]
    rfl
  obtain ⟨l', hrun, hgrown, hput⟩ := sorterSwap_spec cmp h heq
  rw [SwapSafe, h.type_eq, hsize, or_iff_right heq, h.inRange_iff, h.inRange_iff, (h.get i).1,
    (h.get j).1]
  by_cases happ : Appends type s.length i ∨ Appends type s.length j
  · refine iff_of_false ?_ ?_
    · rintro ⟨t, l'', a', t', -, hrun', -, hsame, -⟩
      obtain rfl := (Prod.mk.inj (Option.some.inj (hrun.symm.trans hrun'))).1
      exact (hgrown happ).size_ne (hsame.trans hsize)
    · rintro (⟨hi, hj⟩ | ⟨hno, -⟩)
      · rcases happ with ⟨-, hend, -⟩ | ⟨-, hend, -⟩ <;> omega
      · exact not_or.mpr hno happ
  have hl' := hput happ
  have hshows' := hl'.holds.contents
  rw [and_iff_right (not_or.mp happ)]
  by_cases hboth : (0 ≤ i ∧ i < s.length) ∧ (0 ≤ j ∧ j < s.length)
  · refine iff_of_true ⟨s, l', .always, _, hshows, hrun, hshows', ?_, fun _ => ?_, fun hno => ?_⟩
      (.inl hboth)
    · rw [hl'.holds.size_eq, hsize, length_put, length_put]
    · exact put_put_getElem? hboth.1.1 hboth.1.2 hboth.2.1 hboth.2.2
    · exact absurd (by rwa [h.inRange_iff, h.inRange_iff]) hno
  · rw [or_iff_right hboth, ← put_put_eq_iff hboth]
    constructor
    · rintro ⟨t, l'', a', t', ht, hrun', ht', -, -, hkeep⟩
      obtain rfl := (Prod.mk.inj (Option.some.inj (hrun.symm.trans hrun'))).1
      rw [hshows'.unique ht', hshows.unique ht]
      exact hkeep (by rwa [h.inRange_iff, h.inRange_iff])
    · intro hkeep
      rw [hkeep] at hl' hshows'
      refine ⟨s, l', .always, s, hshows, hrun, hshows', hl'.holds.size_eq.trans hsize.symm,
        fun hin => ?_, fun _ => rfl⟩
      exact absurd (by rwa [h.inRange_iff, h.inRange_iff] at hin) hboth

/-- A linked list that counted past `INT_MAX` takes no index. -/
theorem swapsPositions_iff_of_wrapped (hwrap : l.Wrapped) (i j : ℤ) :
    SwapsPositions cmp l i j ↔ SwapSafe l i j := by
  have hsize := hwrap.size_eq
  obtain ⟨s, hshows⟩ := hwrap.contents
  have hget : ∀ index, l.get index = (none, l) := fun index => by
    cases l with
    | array impl => exact hwrap.elim
    | sorted impl => exact hwrap.elim
    | linked impl =>
      rw [ListObject.size] at hsize
      rw [ListObject.get, LinkedList.get, if_pos (by omega)]
  have hno : ∀ index, ¬InRange l index := fun index hin => by
    have hlt := hin.2
    have hge := hin.1
    omega
  have hend : ∀ index, ¬Appends l.type l.size index := fun index happ => by
    have hge := happ.1
    omega
  refine iff_of_true ⟨s, l, .always, s, hshows, ?_, hshows, rfl, fun hin => absurd hin.1 (hno i),
    fun _ => rfl⟩ (.inr (.inr ⟨⟨hend i, hend j⟩, fun _ => by rw [hget], fun _ => by rw [hget]⟩))
  rw [sorterSwap]
  split
  · rfl
  · rw [hget]
    dsimp only
    rw [hget]
    dsimp only
    rw [replaceAt_wrapped hwrap, Option.bind_some, replaceAt_wrapped hwrap]

/-- **When `sorter_swap` is a swap**, for every array list with slots and every linked list that
calls build, and any two indices, with allocations succeeding. -/
theorem sorterSwap_iff {cmpList : Option α → Option α → ℤ} (h : l.Built cmpList)
    (htype : l.type ≠ .sortedList) (hslots : ∀ impl, l = .array impl → 1 ≤ impl.capacity)
    (i j : ℤ) : SwapsPositions cmpList l i j ↔ SwapSafe l i j := by
  rcases h.holds with ⟨s, hs, hmax⟩ | hwrap
  · exact swapsPositions_iff_of_holding ⟨hs, rfl, htype, hslots, hmax⟩ i j
  · exact swapsPositions_iff_of_wrapped hwrap i j

/-- An array list with items has slots. -/
theorem slots_of_size (hsize : 0 < l.size) : ∀ impl, l = .array impl → 1 ≤ impl.capacity := by
  rintro impl rfl
  have hle := impl.size_le
  have hlen : 0 < ((impl.items.length : ℕ) : ℤ) := hsize
  omega

/-- An array list with two items, whose positions are exchanged. -/
theorem sorterSwap_iff_two : ∃ l : ListObject ℤ, (l.get 0).1 = some 2 ∧ l.size = 2 ∧
    (SwapsPositions byValue l 0 1 ↔ SwapSafe l 0 1) ∧ SwapSafe l 0 1 := by
  obtain ⟨l, hbuilt, htype, hitem, hsize⟩ := exists_array_two
  refine ⟨l, hitem, hsize, sorterSwap_iff hbuilt ?_ (slots_of_size (by omega)) 0 1, .inr (.inl ?_)⟩
  · rw [htype]
    decide
  · rw [InRange, InRange, hsize]
    decide

/-- The first item of two, and an index that is out of range: the item is lost. -/
theorem sorterSwap_loses : ∃ l : ListObject ℤ, l.Built byValue ∧ l.type = .arrayList ∧
    (∀ impl, l = .array impl → 1 ≤ impl.capacity) ∧ l.size = 2 ∧
    ¬SwapsPositions byValue l 0 5 := by
  obtain ⟨l, hbuilt, htype, hitem, hsize⟩ := exists_array_two
  have hslots := slots_of_size (l := l) (by omega)
  refine ⟨l, hbuilt, htype, hslots, hsize, ?_⟩
  rcases hbuilt.holds with ⟨s, hs, hmax⟩ | hwrap
  · rw [swapsPositions_iff_of_holding ⟨hs, htype, by decide, hslots, hmax⟩]
    rintro (heq | ⟨-, hout⟩ | ⟨-, hnull, -⟩)
    · exact absurd heq (by decide)
    · have hlt := hout.2
      omega
    · have hlost := hnull ⟨le_refl 0, by omega⟩
      rw [hitem] at hlost
      exact absurd hlost (by decide)
  · have hneg := hwrap.size_eq
    omega

end Sorter

end OvaLib