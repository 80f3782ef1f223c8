import OvaLib.Lists.ListRefinement
import OvaLib.Lists.SortedList

/-!
# The shallow clone of a list

`list.c`. A `list` has a type, and its methods are those of the type. `list_clone_shallow_impl` is
one loop for all of them: it reads the items of the source in order and inserts each at the end of a
new list. A sorted list ignores that index.

## What a clone should be

`list.h` calls the clone a shallow copy that shares the element pointers with the original. A caller
expects the same items at the same indices. Array lists and linked lists give that. A sorted list
inserts an item before its ties, so inserting in the order of the source puts items that compare
equal into the reverse of their order, and the clone has the right items at wrong indices.

So the exact condition is about ties: in every group of items that compare equal, the pointers read
the same backwards. It holds when there are no ties, and when ties are equal pointers. For a linked
list there is a second part, that it has no more items than an `int` counts; the loop goes from 0 to
the size, and a size that has wrapped makes it go nowhere or only part of the way.

## Scope

Every list that calls can build, clones included, with any allocations failing on the way. The clone
itself is made with memory enough; the loop gives a clone up when an insertion fails, which the
model has and the theorem is not about.

## Main results

* `copyAll_spec` — the loop, for every type
* `ListObject.Built.valid` — what calls build, as far as an `int` can count it
* `listCloneShallow_iff` — when the copy shows the items in the order of the source
* `listCloneShallow_reverses` — two items that compare equal
-/

namespace OvaLib

open Foundation

variable {α : Type*}

/-! ## List objects

One type for the three kinds, as the code has it: a struct with a type and function pointers. -/

/-- `ListType`. -/
inductive ListType
  | arrayList
  | linkedList
  | sortedList
  deriving DecidableEq, Repr

/-- `list`, with the `impl` of its type. -/
inductive ListObject (α : Type*)
  | array (impl : ArrayList (Option α))
  | linked (impl : LinkedList α)
  | sorted (impl : SortedList (Option α))

namespace ListObject

variable (cmp : Option α → Option α → ℤ)

/-- `_type`. -/
def type : ListObject α → ListType
  | array _ => .arrayList
  | linked _ => .linkedList
  | sorted _ => .sortedList

/-- `create_list`. -/
def createList (type : ListType) (initialCapacity : ℤ) (a : Allocator) :
    Option (ListObject α) × Allocator :=
  match type with
  | .arrayList => let (out, a) := ArrayList.create initialCapacity a; (out.map array, a)
  | .linkedList => let (out, a) := LinkedList.create a; (out.map linked, a)
  | .sortedList => let (out, a) := SortedList.create initialCapacity a; (out.map sorted, a)

/-- `insert`. -/
def insert (l : ListObject α) (item : Option α) (index : ℤ) (a : Allocator) :
    Option (ErrorCode × ListObject α × Allocator) :=
  match l with
  | array impl => let (e, impl, a) := impl.insert item index a; some (e, array impl, a)
  | linked impl => (impl.insert item index a).map fun (e, impl, a) => (e, linked impl, a)
  | sorted impl => let (e, impl, a) := impl.insert cmp item a; some (e, sorted impl, a)

/-- `get`. A linked list moves its cursor. -/
def get (l : ListObject α) (index : ℤ) : Option α × ListObject α :=
  match l with
  | array impl => ((impl.get index).join, array impl)
  | linked impl => let (item, impl) := impl.get index; (item, linked impl)
  | sorted impl => ((impl.get index).join, sorted impl)

/-- `remove`. -/
def remove (l : ListObject α) (index : ℤ) : ErrorCode × ListObject α :=
  match l with
  | array impl => let (e, impl) := impl.remove index; (e, array impl)
  | linked impl => let (e, impl) := impl.remove index; (e, linked impl)
  | sorted impl => let (e, impl) := impl.remove index; (e, sorted impl)

/-- `size`. -/
def size : ListObject α → ℤ
  | array impl => impl.size
  | linked impl => impl.size
  | sorted impl => impl.size

/-- `clear`. -/
def clear : ListObject α → ListObject α
  | array impl => array impl.clear
  | linked impl => linked impl.clear
  | sorted impl => sorted impl.clear

/-- A call. -/
def step (l : ListObject α) (a : Allocator) :
    ListCall α → Option (ListResult α × ListObject α × Allocator)
  | .insert item index => (l.insert cmp item index a).map fun (e, l, a) => (.code e, l, a)
  | .get index => let (item, l) := l.get index; some (.item item, l, a)
  | .remove index => let (e, l) := l.remove index; some (.code e, l, a)
  | .size => some (.count l.size, l, a)
  | .clear => some (.cleared, l.clear, a)

/-- The lists that calls build, whichever allocations fail. A clone is built by calls, too. -/
inductive Built : ListObject α → Prop
  | create {type : ListType} {initialCapacity : ℤ} {a a' : Allocator} {l : ListObject α} :
      createList type initialCapacity a = (some l, a') → Built l
  | step {l l' : ListObject α} {a a' : Allocator} {c : ListCall α} {r : ListResult α} :
      Built l → l.step cmp a c = some (r, l', a') → Built l'

/-- The loop of `list_clone_shallow_impl`, for `n` items from `i` on; the flag says whether all
insertions succeeded. -/
def copyAll : ℕ → ℕ → ListObject α → ListObject α → Allocator →
    Option (Bool × ListObject α × ListObject α × Allocator)
  | 0, _, self, copy, a => some (true, self, copy, a)
  | n + 1, i, self, copy, a =>
    let (elem, self) := self.get i
    (copy.insert cmp elem copy.size a).bind fun (err, copy, a) =>
      if err ≠ .success then some (false, self, copy, a) else copyAll n (i + 1) self copy a

/-- `list_clone_shallow_impl`: what it returns, and the source afterwards. -/
def listCloneShallow (self : ListObject α) (a : Allocator) :
    Option (Option (ListObject α) × ListObject α × Allocator) :=
  let n := self.size
  match createList self.type (if n > 0 then n else 1) a with
  | (none, a) => some (none, self, a)
  | (some copy, a) =>
    (copyAll cmp n.toNat 0 self copy a).map fun (ok, self, copy, a) =>
      (if ok then some copy else none, self, a)

/-! ## The loop

An induction on the items still to be copied, with the items copied so far as what the copy shows.
-/

/-- The sequence that a list shows. -/
def Holds : ListObject α → List (Option α) → Prop
  | array impl, s => impl.items = s
  | linked impl, s => ∃ nodes, impl.Describes nodes s
  | sorted impl, s => impl.items = s ∧ Ascends cmp s

/-- So many more items find a slot, or are counted. -/
def HasRoom : ListObject α → ℕ → Prop
  | array impl, k => impl.items.length + k ≤ impl.capacity
  | linked impl, k => impl.size + k ≤ intMax
  | sorted impl, k => impl.items.length + k ≤ impl.capacity

/-- Where an insertion at the end puts an item. -/
def placed (cmp : Option α → Option α → ℤ) (type : ListType) (s : List (Option α))
    (item : Option α) : List (Option α) :=
  if type = .sortedList then insertBefore cmp item s else s ++ [item]

variable {cmp} {l : ListObject α} {s : List (Option α)}

theorem Holds.size_eq (h : l.Holds cmp s) : l.size = s.length := by
  cases l with
  | array impl => rw [size, ArrayList.size, h]
  | linked impl =>
    obtain ⟨nodes, hdesc⟩ := h
    exact hdesc.size_eq
  | sorted impl => rw [size, SortedList.size, h.1]

theorem Holds.get (h : l.Holds cmp s) {i : ℕ} (hi : i < s.length) :
    (l.get i).1 = s[i]?.join ∧ (l.get i).2.Holds cmp s ∧ (l.get i).2.type = l.type := by
  cases l with
  | array impl =>
    obtain rfl : impl.items = s := h
    refine ⟨?_, rfl, rfl⟩
    rw [ListObject.get, ArrayList.get, if_neg (by omega), Int.toNat_natCast]
  | linked impl =>
    obtain ⟨nodes, hdesc⟩ := h
    obtain ⟨hitem, hdesc'⟩ := hdesc.get (Int.natCast_nonneg i) (Int.ofNat_lt.mpr hi)
    exact ⟨hitem, ⟨nodes, hdesc'⟩, rfl⟩
  | sorted impl =>
    obtain ⟨rfl, hsorted⟩ : impl.items = s ∧ Ascends cmp s := h
    refine ⟨?_, ⟨rfl, hsorted⟩, rfl⟩
    rw [ListObject.get, SortedList.get, if_neg (by omega), Int.toNat_natCast]

/-- An index out of range reads `NULL`. -/
theorem Holds.get_of_not (h : l.Holds cmp s) {index : ℤ} (hi : ¬ (0 ≤ index ∧ index < s.length)) :
    (l.get index).1 = none := by
  have hsize := h.size_eq
  cases l with
  | array impl =>
    rw [size, ArrayList.size] at hsize
    rw [ListObject.get, ArrayList.get, if_pos (by omega)]
    rfl
  | linked impl =>
    rw [size] at hsize
    rw [ListObject.get, LinkedList.get, if_pos (by omega)]
  | sorted impl =>
    rw [size, SortedList.size] at hsize
    rw [ListObject.get, SortedList.get, if_pos (by omega)]
    rfl

/-- **An insertion at the end**, with allocations succeeding. -/
theorem Holds.insert (hcmp : IsComparator cmp) (h : l.Holds cmp s) {k : ℕ}
    (hroom : l.HasRoom (k + 1)) (item : Option α) :
    ∃ l', l.insert cmp item l.size .always = some (.success, l', .always) ∧
      l'.Holds cmp (placed cmp l.type s item) ∧ l'.HasRoom k ∧ l'.type = l.type := by
  cases l with
  | array impl =>
    obtain rfl : impl.items = s := h
    have hle : impl.items.length + (k + 1) ≤ impl.capacity := hroom
    have hmax := impl.capacity_le
    obtain ⟨impl', hinsert, hitems, hcap⟩ := ArrayList.insert_of_lt (l := impl) (by omega) item
    refine ⟨array impl', ?_, hitems, ?_, rfl⟩
    · rw [ListObject.insert, size, hinsert]
    · show impl'.items.length + k ≤ impl'.capacity
      rw [hitems, hcap, List.length_append, List.length_singleton]
      omega
  | linked impl =>
    obtain ⟨nodes, hdesc⟩ := h
    have hsize := hdesc.size_eq
    have hle : impl.size + (k + 1 : ℕ) ≤ intMax := hroom
    obtain ⟨nodes', impl', hinsert, hdesc'⟩ := hdesc.insert item
      (show 0 ≤ impl.size by omega) (by omega) (by omega)
    rw [hsize, Int.toNat_natCast, List.insertIdx_length_self] at hdesc'
    have hsize' := hdesc'.size_eq
    refine ⟨linked impl', ?_, ⟨nodes', hdesc'⟩, ?_, rfl⟩
    · rw [ListObject.insert, size, hinsert]
      rfl
    · show impl'.size + k ≤ intMax
      rw [List.length_append, List.length_singleton] at hsize'
      omega
  | sorted impl =>
    obtain ⟨rfl, hsorted⟩ : impl.items = s ∧ Ascends cmp s := h
    have hle : impl.items.length + (k + 1) ≤ impl.capacity := hroom
    obtain ⟨impl', hinsert, hcap⟩ :=
      @SortedList.insert_of_lt _ cmp impl (by omega) item .always
    have hitems := SortedList.insert_items hcmp hsorted item .always hinsert
    refine ⟨sorted impl', ?_, ⟨hitems, ascends_insertBefore hcmp item hsorted⟩, ?_, rfl⟩
    · rw [ListObject.insert, hinsert]
    · show impl'.items.length + k ≤ impl'.capacity
      rw [hitems, hcap, insertBefore, List.orderedInsert_length]
      omega

/-- **The copying loop**, for every type. -/
theorem copyAll_spec (hcmp : IsComparator cmp) {n i : ℕ} {self copy : ListObject α}
    {t : List (Option α)} (hself : self.Holds cmp s) (hcopy : copy.Holds cmp t)
    (hroom : copy.HasRoom n) (hlen : i + n = s.length) :
    ∃ self' copy', copyAll cmp n i self copy .always = some (true, self', copy', .always) ∧
      self'.Holds cmp s ∧ copy'.Holds cmp ((s.drop i).foldl (placed cmp copy.type) t) := by
  induction n generalizing i self copy t with
  | zero =>
    rw [List.drop_of_length_le (by omega)]
    exact ⟨self, copy, rfl, hself, hcopy⟩
  | succ n ih =>
    have hi : i < s.length := by omega
    obtain ⟨hitem, hself₁, -⟩ := hself.get hi
    obtain ⟨copy₁, hinsert, hcopy₁, hroom₁, htype⟩ := hcopy.insert hcmp hroom s[i]
    obtain ⟨self₂, copy₂, hloop, hself₂, hcopy₂⟩ := ih (i := i + 1) hself₁ hcopy₁ hroom₁ (by omega)
    rw [List.getElem?_eq_getElem hi, Option.join_some] at hitem
    refine ⟨self₂, copy₂, ?_, hself₂, ?_⟩
    · rw [copyAll]
      dsimp only
      rw [hitem, hinsert]
      exact hloop
    · rw [List.drop_eq_getElem_cons hi, List.foldl_cons]
      rwa [htype] at hcopy₂

/-- The new list has room for the items of the source. -/
theorem createList_always (cmp : Option α → Option α → ℤ) (type : ListType) {k : ℕ}
    (hk : k ≤ intMax) :
    ∃ copy : ListObject α,
      createList type (if (k : ℤ) > 0 then (k : ℤ) else 1) .always = (some copy, .always) ∧
        copy.Holds cmp [] ∧ copy.HasRoom k ∧ copy.type = type := by
  have hmax : (k : ℤ) ≤ intMax := Int.ofNat_le.mpr hk
  have hcap : (0 : ℤ) < (if (k : ℤ) > 0 then (k : ℤ) else 1) := by
    split <;> omega
  have hcap' : (if (k : ℤ) > 0 then (k : ℤ) else 1) ≤ intMax := by
    split
    · exact hmax
    · decide
  have hroom : (k : ℤ) ≤ if (k : ℤ) > 0 then (k : ℤ) else 1 := by
    split <;> omega
  cases type with
  | arrayList =>
    have hcreate := congrArg (fun r => (r.1.map array, r.2))
      (ArrayList.create_always (α := Option α) hcap.le hcap')
    refine ⟨_, hcreate, rfl, ?_, rfl⟩
    show 0 + k ≤ Int.toNat _
    omega
  | linkedList =>
    obtain ⟨impl, hcreate, hdesc⟩ := LinkedList.create_describes (α := α)
    refine ⟨linked impl, by rw [createList, hcreate]; rfl, ⟨[], hdesc⟩, ?_, rfl⟩
    show impl.size + k ≤ intMax
    rw [hdesc.size_eq, List.length_nil]
    omega
  | sortedList =>
    obtain ⟨impl, hcreate, hnil, hcapacity⟩ := SortedList.create_always (α := Option α) hcap hcap'
    refine ⟨sorted impl, by rw [createList, hcreate]; rfl, ⟨hnil, .nil⟩, ?_, rfl⟩
    show impl.items.length + k ≤ impl.capacity
    rw [hnil, List.length_nil]
    omega

/-- **A clone is made**, of every list that shows a sequence, and the source still shows it. -/
theorem listCloneShallow_spec (hcmp : IsComparator cmp) (h : l.Holds cmp s)
    (hmax : s.length ≤ intMax) :
    ∃ copy l', l.listCloneShallow cmp .always = some (some copy, l', .always) ∧
      l'.Holds cmp s ∧ copy.Holds cmp (s.foldl (placed cmp l.type) []) := by
  obtain ⟨copy, hcreate, hcopy, hroom, htype⟩ := createList_always cmp l.type hmax
  obtain ⟨l', copy', hloop, hl', hcopy'⟩ :=
    copyAll_spec (i := 0) hcmp h hcopy hroom (Nat.zero_add _)
  rw [List.drop_zero, htype] at hcopy'
  refine ⟨copy', l', ?_, hl', hcopy'⟩
  rw [listCloneShallow, h.size_eq]
  dsimp only
  rw [hcreate]
  dsimp only
  rw [Int.toNat_natCast, hloop]
  rfl

theorem foldl_placed_append {type : ListType} (htype : type ≠ .sortedList) (t : List (Option α)) :
    s.foldl (placed cmp type) t = t ++ s := by
  induction s generalizing t with
  | nil => exact (List.append_nil t).symm
  | cons x s ih =>
    rw [List.foldl_cons, placed, if_neg htype, ih, List.append_assoc, List.singleton_append]

theorem foldl_placed_sorted : s.foldl (placed cmp .sortedList) [] = insertAllBefore cmp s := by
  refine congrArg (fun f => s.foldl f []) (funext fun t => funext fun x => ?_)
  exact if_pos rfl

/-! ## What calls build

The invariant of all lists, in two parts: what the storage chains, and what the size says. -/

/-- The items in the slots or in the nodes of a list, whatever `size` says. -/
def Contents : ListObject α → List (Option α) → Prop
  | array impl, s => impl.items = s
  | linked impl, s => ∃ nodes, Follows impl.next impl.head nodes ∧ nodes.map impl.data = s
  | sorted impl, s => impl.items = s

theorem contents_of_chains {impl : LinkedList α} {nodes : List ℕ} (h : impl.Chains nodes s) :
    (linked impl).Contents s :=
  ⟨nodes, h.shows.forwards, h.shows.payloads⟩

theorem Holds.contents (h : l.Holds cmp s) : l.Contents s := by
  cases l with
  | array impl => exact h
  | linked impl =>
    obtain ⟨nodes, hdesc⟩ := h
    exact contents_of_chains hdesc.chains
  | sorted impl => exact h.1

/-- A list has one content. -/
theorem Contents.unique {t : List (Option α)} (hs : l.Contents s) (ht : l.Contents t) : s = t := by
  cases l with
  | array impl => exact hs.symm.trans ht
  | linked impl =>
    obtain ⟨nodes, hnodes, rfl⟩ := hs
    obtain ⟨nodes', hnodes', rfl⟩ := ht
    rw [hnodes.unique hnodes']
  | sorted impl => exact hs.symm.trans ht

/-- A linked list that counted past `INT_MAX`. Its nodes still chain what was inserted. -/
def Wrapped : ListObject α → Prop
  | linked impl => impl.size = -2147483648 ∧ ∃ nodes s, impl.Chains nodes s
  | _ => False

theorem Wrapped.size_eq (h : l.Wrapped) : l.size = -2147483648 := by
  cases l with
  | linked impl => exact h.1
  | array impl => exact h.elim
  | sorted impl => exact h.elim

theorem Wrapped.contents (h : l.Wrapped) : ∃ s, l.Contents s := by
  cases l with
  | linked impl =>
    obtain ⟨-, nodes, s, hchains⟩ := h
    exact ⟨s, contents_of_chains hchains⟩
  | array impl => exact h.elim
  | sorted impl => exact h.elim

/-- A list that counts its items shows a sequence. -/
def Valid (cmp : Option α → Option α → ℤ) (l : ListObject α) : Prop :=
  (∃ s, l.Holds cmp s ∧ s.length ≤ intMax) ∨ l.Wrapped

theorem valid_of_describes {impl : LinkedList α}
    (h : ∃ nodes s, impl.Describes nodes s ∧ s.length ≤ intMax) : (linked impl).Valid cmp := by
  obtain ⟨nodes, s, hdesc, hmax⟩ := h
  exact .inl ⟨s, ⟨nodes, hdesc⟩, hmax⟩

theorem valid_sorted {impl : SortedList (Option α)} (h : Ascends cmp impl.items) :
    (sorted impl).Valid cmp :=
  .inl ⟨impl.items, ⟨rfl, h⟩, impl.size_le.trans impl.capacity_le⟩

theorem valid_array (impl : ArrayList (Option α)) : (array impl).Valid cmp :=
  .inl ⟨impl.items, rfl, impl.size_le.trans impl.capacity_le⟩

/-- A call of a linked list is one of its `impl`. -/
theorem step_linked (impl : LinkedList α) (a : Allocator) (c : ListCall α) :
    (linked impl).step cmp a c = (impl.step a c).map fun (r, impl, a) => (r, linked impl, a) := by
  cases c with
  | insert item index =>
    rw [step, insert, LinkedList.step, Option.map_map, Option.map_map]
    rfl
  | get index => rfl
  | remove index => rfl
  | size => rfl
  | clear => rfl

/-- A call of a linked list whose count fits. -/
theorem valid_step_describes {impl impl' : LinkedList α} {nodes : List ℕ}
    (hdesc : impl.Describes nodes s) (hmax : s.length ≤ intMax) {a a' : Allocator}
    {c : ListCall α} {r : ListResult α} (hstep : impl.step a c = some (r, impl', a')) :
    (linked impl').Valid cmp := by
  by_cases hroom : ∀ item index, c = .insert item index → impl.size < intMax
  · exact valid_of_describes (LinkedList.step_describes hdesc hmax hroom hstep)
  · simp only [not_forall] at hroom
    obtain ⟨item, index, rfl, hfull⟩ := hroom
    obtain ⟨⟨e, m, b⟩, hinsert, hpair⟩ := Option.map_eq_some_iff.mp hstep
    obtain rfl : m = impl' := (Prod.mk.inj (Prod.mk.inj hpair).2).1
    have hsize := hdesc.size_eq
    have hlen : s.length = intMax := by omega
    by_cases hin : 0 ≤ index ∧ index ≤ s.length
    · cases ha : a.outcome 0 with
      | true =>
        obtain ⟨nodes', m', hinsert', hcount, hchains⟩ := hdesc.insert_chains item hin.1 hin.2 ha
        rw [hinsert] at hinsert'
        obtain rfl := (Prod.mk.inj (Prod.mk.inj (Option.some.inj hinsert')).2).1
        rw [hlen] at hcount
        exact .inr ⟨hcount, nodes', _, hchains⟩
      | false =>
        have hinsert' := hdesc.insert_of_noAlloc item hin.1 hin.2 ha
        rw [hinsert] at hinsert'
        obtain rfl := (Prod.mk.inj (Prod.mk.inj (Option.some.inj hinsert')).2).1
        exact valid_of_describes ⟨nodes, s, hdesc, hmax⟩
    · rw [LinkedList.insert, if_pos (by omega)] at hinsert
      obtain rfl := (Prod.mk.inj (Prod.mk.inj (Option.some.inj hinsert)).2).1
      exact valid_of_describes ⟨nodes, s, hdesc, hmax⟩

/-- A linked list that counted past `INT_MAX` takes no index, and starts again when cleared. -/
theorem valid_step_wrapped {impl impl' : LinkedList α} (hwrap : (linked impl).Wrapped)
    {a a' : Allocator} {c : ListCall α} {r : ListResult α}
    (hstep : impl.step a c = some (r, impl', a')) : (linked impl').Valid cmp := by
  have hsize : impl.size = -2147483648 := hwrap.1
  cases c with
  | insert item index =>
    rw [LinkedList.step, LinkedList.insert, if_pos (by omega)] at hstep
    obtain rfl := (Prod.mk.inj (Prod.mk.inj (Option.some.inj hstep)).2).1
    exact .inr hwrap
  | get index =>
    rw [LinkedList.step, LinkedList.get, if_pos (by omega)] at hstep
    obtain rfl := (Prod.mk.inj (Prod.mk.inj (Option.some.inj hstep)).2).1
    exact .inr hwrap
  | remove index =>
    rw [LinkedList.step, LinkedList.remove, if_pos (by omega)] at hstep
    obtain rfl := (Prod.mk.inj (Prod.mk.inj (Option.some.inj hstep)).2).1
    exact .inr hwrap
  | size =>
    obtain rfl := (Prod.mk.inj (Prod.mk.inj (Option.some.inj hstep)).2).1
    exact .inr hwrap
  | clear =>
    obtain rfl := (Prod.mk.inj (Prod.mk.inj (Option.some.inj hstep)).2).1
    exact valid_of_describes ⟨[], [], LinkedList.describes_clear impl, Nat.zero_le _⟩

/-- A call of a linked list. No comparator is asked. -/
theorem Valid.step_linked {cmp' : Option α → Option α → ℤ} {impl : LinkedList α} {l' : ListObject α}
    {a a' : Allocator} {c : ListCall α} {r : ListResult α} (h : (linked impl).Valid cmp)
    (hstep : (linked impl).step cmp' a c = some (r, l', a')) : l'.Valid cmp := by
  rw [ListObject.step_linked] at hstep
  obtain ⟨⟨r', impl', b⟩, himpl, hpair⟩ := Option.map_eq_some_iff.mp hstep
  obtain rfl := (Prod.mk.inj (Prod.mk.inj hpair).2).1
  rcases h with ⟨s, ⟨nodes, hdesc⟩, hmax⟩ | hwrap
  · exact valid_step_describes hdesc hmax himpl
  · exact valid_step_wrapped hwrap himpl

/-- A call of an array list. -/
theorem valid_step_array {impl : ArrayList (Option α)} {cmp' : Option α → Option α → ℤ}
    {l' : ListObject α} {a a' : Allocator} {c : ListCall α} {r : ListResult α}
    (hstep : (array impl).step cmp' a c = some (r, l', a')) : l'.Valid cmp := by
  obtain ⟨impl', rfl⟩ : ∃ impl', array impl' = l' := by
    cases c <;> exact ⟨_, (Prod.mk.inj (Prod.mk.inj (Option.some.inj hstep)).2).1⟩
  exact valid_array impl'

/-- A call of a list that calls built. -/
theorem Valid.step (hcmp : IsComparator cmp) {l' : ListObject α} {a a' : Allocator}
    {c : ListCall α} {r : ListResult α} (h : l.Valid cmp)
    (hstep : l.step cmp a c = some (r, l', a')) : l'.Valid cmp := by
  cases l with
  | array impl => exact valid_step_array hstep
  | linked impl => exact h.step_linked hstep
  | sorted impl =>
    have hsorted : Ascends cmp impl.items := by
      rcases h with ⟨s, ⟨rfl, hs⟩, -⟩ | hwrap
      · exact hs
      · exact hwrap.elim
    cases c with
    | insert item index =>
      rw [ListObject.step, ListObject.insert] at hstep
      rcases impl.insert_cases cmp item a with ⟨impl', b, hinsert⟩ | ⟨b, hinsert⟩
      · rw [hinsert] at hstep
        obtain rfl := (Prod.mk.inj (Prod.mk.inj (Option.some.inj hstep)).2).1
        refine valid_sorted ?_
        rw [SortedList.insert_items hcmp hsorted item a hinsert]
        exact ascends_insertBefore hcmp item hsorted
      · rw [hinsert] at hstep
        obtain rfl := (Prod.mk.inj (Prod.mk.inj (Option.some.inj hstep)).2).1
        exact valid_sorted hsorted
    | get index =>
      obtain rfl := (Prod.mk.inj (Prod.mk.inj (Option.some.inj hstep)).2).1
      exact valid_sorted hsorted
    | remove index =>
      obtain rfl := (Prod.mk.inj (Prod.mk.inj (Option.some.inj hstep)).2).1
      exact valid_sorted (SortedList.ascends_remove hsorted index)
    | size =>
      obtain rfl := (Prod.mk.inj (Prod.mk.inj (Option.some.inj hstep)).2).1
      exact valid_sorted hsorted
    | clear =>
      obtain rfl := (Prod.mk.inj (Prod.mk.inj (Option.some.inj hstep)).2).1
      exact valid_sorted .nil

/-- **What calls build** shows a sequence, or is a linked list that counted past `INT_MAX`. -/
theorem Built.valid (hcmp : IsComparator cmp) (h : l.Built cmp) : l.Valid cmp := by
  induction h with
  | @create type initialCapacity a a' l hcreate =>
    cases type with
    | arrayList =>
      obtain ⟨impl, -, rfl⟩ := Option.map_eq_some_iff.mp (Prod.mk.inj hcreate).1
      exact valid_array impl
    | linkedList =>
      obtain ⟨impl, himpl, rfl⟩ := Option.map_eq_some_iff.mp (Prod.mk.inj hcreate).1
      exact valid_of_describes (LinkedList.Built.create (Prod.ext himpl rfl)).describes
    | sortedList =>
      obtain ⟨impl, himpl, rfl⟩ := Option.map_eq_some_iff.mp (Prod.mk.inj hcreate).1
      refine valid_sorted ?_
      rw [SortedList.items_of_create (Prod.ext himpl rfl)]
      exact .nil
  | step _ hstep ih => exact ih.step hcmp hstep

/-! ## The copy and its source -/

/-- Two lists show the same sequence when they have the same size and the same items. -/
theorem Holds.shows_iff {l' : ListObject α} {t : List (Option α)} (h : l.Holds cmp s)
    (h' : l'.Holds cmp t) :
    (l'.size = l.size ∧ ∀ index, (l'.get index).1 = (l.get index).1) ↔ t = s := by
  constructor
  · rintro ⟨hsize, hget⟩
    rw [h.size_eq, h'.size_eq] at hsize
    refine List.ext_getElem (Int.ofNat_inj.mp hsize) fun i hi hi' => ?_
    have hitem := hget i
    rwa [(h'.get hi).1, (h.get hi').1, List.getElem?_eq_getElem hi, List.getElem?_eq_getElem hi',
      Option.join_some, Option.join_some] at hitem
  · rintro rfl
    refine ⟨h'.size_eq.trans h.size_eq.symm, fun index => ?_⟩
    by_cases hin : 0 ≤ index ∧ index < t.length
    · obtain ⟨i, rfl⟩ := Int.eq_ofNat_of_zero_le hin.1
      have hi : i < t.length := by omega
      exact (h'.get hi).1.trans (h.get hi).1.symm
    · exact (h'.get_of_not hin).trans (h.get_of_not hin).symm

/-- `clone_shallow` returns a list that shows what the source shows, before and after. -/
def Clones (cmp : Option α → Option α → ℤ) (l : ListObject α) : Prop :=
  ∃ copy l', l.listCloneShallow cmp .always = some (some copy, l', .always) ∧
    (copy.size = l.size ∧ ∀ index, (copy.get index).1 = (l.get index).1) ∧
    l'.size = l.size ∧ ∀ index, (l'.get index).1 = (l.get index).1

/-- In a sorted list, every group of items that compare equal reads the same backwards; a linked
list has at most `INT_MAX` items, so that its `size` has not wrapped around. -/
def KeepsOrder (cmp : Option α → Option α → ℤ) : ListObject α → Prop
  | array _ => True
  | linked impl => 0 ≤ impl.size
  | sorted impl => TiesPalindrome cmp impl.items

/-- **When the clone is the source**: for every list that calls build, exactly when the list keeps
the order. -/
theorem listCloneShallow_iff (hcmp : IsComparator cmp) (h : l.Built cmp) :
    l.Clones cmp ↔ l.KeepsOrder cmp := by
  rcases h.valid hcmp with ⟨s, hs, hmax⟩ | hwrap
  · obtain ⟨copy, l', hclone, hl', hcopy⟩ := listCloneShallow_spec hcmp hs hmax
    have hiff : l.Clones cmp ↔ s.foldl (placed cmp l.type) [] = s := by
      rw [← hs.shows_iff hcopy]
      constructor
      · rintro ⟨copy', l'', hclone', hshows, -⟩
        obtain rfl : copy = copy' := by
          have heq := Option.some.inj (hclone.symm.trans hclone')
          exact Option.some.inj (Prod.mk.inj heq).1
        exact hshows
      · exact fun hshows => ⟨copy, l', hclone, hshows, (hs.shows_iff hl').mpr rfl⟩
    rw [hiff]
    cases l with
    | array impl =>
      rw [show (array impl).type = .arrayList from rfl, foldl_placed_append (by decide)]
      exact iff_of_true rfl trivial
    | linked impl =>
      rw [show (linked impl).type = .linkedList from rfl, foldl_placed_append (by decide)]
      have hsize : impl.size = s.length := hs.size_eq
      exact iff_of_true rfl (show 0 ≤ impl.size by omega)
    | sorted impl =>
      obtain ⟨rfl, hsorted⟩ : impl.items = s ∧ Ascends cmp s := hs
      rw [show (sorted impl).type = .sortedList from rfl, foldl_placed_sorted]
      exact insertAllBefore_eq_iff hcmp hsorted
  · cases l with
    | array impl => exact hwrap.elim
    | sorted impl => exact hwrap.elim
    | linked impl =>
      -- the loop does not run, and the copy is empty
      have hsize : impl.size = -2147483648 := hwrap.1
      refine iff_of_false ?_ (show ¬ 0 ≤ impl.size by omega)
      rintro ⟨copy, l', hclone, ⟨hcopy, -⟩, -⟩
      obtain ⟨new, hcreate, hempty⟩ := LinkedList.create_describes (α := α)
      rw [listCloneShallow, show (linked impl).type = .linkedList from rfl, createList, hcreate,
        show (linked impl).size = -2147483648 from hsize] at hclone
      have hnew : linked new = copy := by
        have heq := Option.some.inj hclone
        exact Option.some.inj (Prod.mk.inj heq).1
      rw [← hnew, show (linked new).size = 0 from hempty.size_eq,
        show (linked impl).size = -2147483648 from hsize] at hcopy
      exact absurd hcopy (by decide)

/-! ## Two items that compare equal -/

/-- Items with a priority and a name; `NULL` has priority 0. -/
def byPriority (x y : Option (ℤ × ℤ)) : ℤ := (x.elim 0 Prod.fst) - (y.elim 0 Prod.fst)

theorem byPriority_isComparator : IsComparator byPriority :=
  isComparator_of_key (fun x => x.elim 0 Prod.fst) (fun _ _ => sub_neg) fun _ _ => sub_pos

/-- A new sorted list after some insertions. -/
def inserted : List (ℤ × ℤ) → Option (ListObject (ℤ × ℤ))
  | [] => (createList .sortedList 4 .always).1
  | item :: items => (inserted items).bind fun l =>
    (l.step byPriority .always (.insert (some item) 0)).map fun r => r.2.1

theorem built_inserted {items : List (ℤ × ℤ)} {l : ListObject (ℤ × ℤ)}
    (h : inserted items = some l) : l.Built byPriority := by
  induction items generalizing l with
  | nil => exact .create (Prod.ext h rfl)
  | cons item items ih =>
    obtain ⟨m, hm, h⟩ := Option.bind_eq_some_iff.mp h
    obtain ⟨⟨r, l', a'⟩, hstep, rfl⟩ := Option.map_eq_some_iff.mp h
    exact .step (ih hm) hstep

/-- The items of a sorted list. -/
def sortedItems : ListObject α → List (Option α)
  | sorted impl => impl.items
  | _ => []

/-- A copy of a sorted list that holds one item twice: the group of the two reads the same
backwards, and the order is kept. -/
theorem listCloneShallow_iff_twice :
    ∃ l : ListObject (ℤ × ℤ), inserted [(5, 1), (7, 0), (5, 1)] = some l ∧
      l.sortedItems = [some (5, 1), some (5, 1), some (7, 0)] ∧ l.Clones byPriority := by
  obtain ⟨l, hl, hread⟩ := Option.map_eq_some_iff.mp
    (show (inserted [(5, 1), (7, 0), (5, 1)]).map (fun l => (l.type, l.sortedItems)) =
      some (.sortedList, [some (5, 1), some (5, 1), some (7, 0)]) by decide +kernel)
  obtain ⟨htype, hitems⟩ := Prod.mk.inj hread
  refine ⟨l, hl, hitems,
    (listCloneShallow_iff byPriority_isComparator (built_inserted hl)).mpr ?_⟩
  cases l with
  | array impl => cases htype
  | linked impl => cases htype
  | sorted impl =>
    rw [KeepsOrder, show impl.items = _ from hitems]
    exact fun x hx => .of_reverse_eq (by revert x; decide)

/-- **Two items that compare equal** are the other way round in the copy. -/
theorem listCloneShallow_reverses :
    ∃ l : ListObject (ℤ × ℤ), IsComparator byPriority ∧ l.Built byPriority ∧
      (l.get 0).1 = some (5, 1) ∧ ¬ l.Clones byPriority := by
  obtain ⟨l, hl, hrun⟩ := Option.bind_eq_some_iff.mp
    (show ((inserted [(5, 1), (5, 0)]).bind fun l =>
        (l.listCloneShallow byPriority .always).bind fun r => r.1.map fun copy =>
          ((l.get 0).1, (copy.get 0).1)) = some (some (5, 1), some (5, 0)) by decide +kernel)
  obtain ⟨r, hclone, hrun⟩ := Option.bind_eq_some_iff.mp hrun
  obtain ⟨copy, hcopy, hitems⟩ := Option.map_eq_some_iff.mp hrun
  obtain ⟨hitem, hitem'⟩ := Prod.mk.inj hitems
  refine ⟨l, byPriority_isComparator, built_inserted hl, hitem, ?_⟩
  rintro ⟨copy', l', hclone', ⟨-, hget⟩, -⟩
  obtain rfl : copy = copy' := by
    rw [hclone] at hclone'
    rw [Option.some.inj hclone'] at hcopy
    exact (Option.some.inj hcopy).symm
  have hsame := hget 0
  rw [hitem, hitem'] at hsame
  exact absurd hsame (by decide)

end ListObject

end OvaLib
