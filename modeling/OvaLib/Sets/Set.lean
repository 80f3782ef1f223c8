import OvaLib.Lists.ArrayList
import OvaLib.Map.HashMap
import OvaLib.Tree.RedBlackMethods

/-!
# Sets

`set.c` and its two backends, `hash_set.c` over the hash map and `tree_set.c` over the red-black
tree. The elements are the non-`NULL` pointers, of the type `α`; `ptr` is the number a pointer is
converted to. The methods take an `int` size wherever the source does.

## The contract

Two elements are the same when the comparator says 0. `add` and `remove` say whether they changed
the set, `contains` says whether the element is there, and all three say no to `NULL`. The
operations on two sets return a new one, or `NULL` when the sets are incompatible or an allocation
fails. Two sets are compatible when they are of one type and were given the same functions.

## How an answer comes about

No method asks its backend whether it succeeded. `add` compares the size before with the size after,
and so does `remove` on a tree set; a hash set looks at the value that was removed. The sizes are
`int`s that wrap around, so at `INT_MAX` members an addition that takes place is answered by no. The
operations on two sets read one of them through `to_list` and add to a new set what passes a test.
They ignore what `add` answers.

## Implementation notes

Two function pointers are equal when their addresses are. The table `ops` is chosen together with
`backend_impl`, so a call through it is a match on the backend. The tree loops take fuel, and an
outer `none` says that it ran out; the `none` inside is `NULL`.
-/

namespace OvaLib

namespace Sets

open Map (MapFunctions MapImpl MapEntry hashInsert hashGet hashRemove hashSize createHashMap)
open OvaLib.Tree (RbTree rbInsertMethod rbDeleteMethod treeSearchMethod treeSizeMethod createTree
  treeInOrderTraverseMethod)

/-- `set_type`. -/
inductive SetType
  | hash
  | tree
  deriving DecidableEq, Repr

/-- A function pointer: the address it is compared by, and the function it calls. -/
structure FnPtr (τ : Type*) where
  addr : ℕ
  call : τ

/-- What `&hash_set_marker` is a pointer to. -/
abbrev Marker := Unit

/-- `backend_impl`: a `hash_set_impl` holds a map, a `tree_set_impl` a tree. -/
inductive Backend (α : Type*)
  | hash (impl : MapFunctions α) (m : MapImpl α Marker)
  | tree (cmp : α → α → ℤ) (t : RbTree α α)

/-- `set_impl`. -/
structure SetImpl (α : Type*) where
  type : SetType
  /-- The comparator, the default one or the caller's. -/
  cmp : FnPtr (α → α → ℤ)
  /-- The hash function; a tree set has none. -/
  hash : Option (FnPtr (α → ℕ → ℕ))
  backend : Backend α

variable {α : Type*}

/-! ## The default functions -/

/-- `set_default_ptr_compare`, at an address of its own. -/
def setDefaultPtrCompare (ptr : α → UInt64) : FnPtr (α → α → ℤ) where
  addr := 0
  call := fun a b => (if ptr a > ptr b then 1 else 0) - (if ptr a < ptr b then 1 else 0)

/-- The mixed pointer of `set_default_ptr_hash`. -/
def mixPtr (x : UInt64) : UInt64 :=
  let x := x ^^^ (x >>> 16)
  let x := x * 0x7feb352d
  let x := x ^^^ (x >>> 15)
  let x := x * 0x846ca68b
  x ^^^ (x >>> 16)

/-- `set_default_ptr_hash`. -/
def setDefaultPtrHash (ptr : α → UInt64) : FnPtr (α → ℕ → ℕ) where
  addr := 0
  call := fun key capacity => if capacity = 0 then 0 else (mixPtr (ptr key)).toNat % capacity

/-! ## Lists of elements

`to_list` of both backends goes through its members and appends each one to an array list. The
initial capacity is the size of the set, or 4. -/

/-- `out->insert(out, key, out->size(out))`, whose result no caller looks at. -/
def append (out : ArrayList (Option α) × Allocator) (key : Option α) :
    ArrayList (Option α) × Allocator :=
  (out.1.insert key out.1.size out.2).2

/-- The list that `to_list` of both backends starts from, for a set of size `n`. -/
def createElements (a : Allocator) (n : ℤ) : Option (ArrayList (Option α)) × Allocator :=
  ArrayList.create (if n > 0 then n else 4) a

/-! ## The hash set

The members are the keys of a map, and the value of each is the address of one static `char`, which
only has to differ from `NULL`. -/

section

variable [DecidableEq α]

/-- `hash_set_size`. -/
def hashSetSize (m : MapImpl α Marker) : ℤ := hashSize m

/-- `hash_set_add`. -/
def hashSetAdd (a : Allocator) (impl : MapFunctions α) (m : MapImpl α Marker)
    (element : Option α) : Bool × MapImpl α Marker × Allocator :=
  match element with
  | none => (false, m, a)
  | some element =>
    let before := hashSetSize m
    let (m', _, a') := hashInsert impl a m (some element) (some ())
    (decide (hashSetSize m' > before), m', a')

/-- `hash_set_contains`. -/
def hashSetContains (impl : MapFunctions α) (m : MapImpl α Marker) (element : Option α) : Bool :=
  match element with
  | none => false
  | some element => hashGet impl m (some element) ≠ none

/-- `hash_set_remove`. -/
def hashSetRemove (impl : MapFunctions α) (m : MapImpl α Marker) (element : Option α) :
    Bool × MapImpl α Marker :=
  match element with
  | none => (false, m)
  | some element =>
    let (m', data) := hashRemove impl m (some element)
    (decide (data ≠ none), m')

/-- `hash_set_to_list`: the chains of all buckets in turn. -/
def hashSetToList (a : Allocator) (m : MapImpl α Marker) :
    Option (ArrayList (Option α)) × Allocator :=
  match createElements a (hashSetSize m) with
  | (none, a) => (none, a)
  | (some out, a) =>
    let (out, a) := (List.range m.capacity).foldl
      (fun out i => (m.buckets i).foldl (fun out node => append out node.key) out) (out, a)
    (some out, a)

/-- `hash_set_create_impl`: a map, and a `hash_set_impl` for it. -/
def hashSetCreateImpl (a : Allocator) (capacity : ℤ) (cmp : α → α → ℤ) (hash : α → ℕ → ℕ) :
    Option (Backend α) × Allocator :=
  match createHashMap a capacity with
  | (none, a) => (none, a)
  | (some m, a) =>
    let (impl, a) := a.alloc
    (if impl then some (.hash ⟨hash, some cmp⟩ m) else none, a)

end

/-! ## The tree set

The members are the keys of a red-black tree. Each one is its own value, so that a search answers by
something that is not `NULL`. The traversal reaches its list through a static variable, which is set
before it and is the state of the traversal here. -/

/-- `tree_set_size`. -/
def treeSetSize (t : RbTree α α) : ℤ := treeSizeMethod t

/-- `tree_set_contains`. -/
def treeSetContains (fuel : ℕ) (cmp : α → α → ℤ) (t : RbTree α α) (element : Option α) :
    Option Bool :=
  match element with
  | none => some false
  | some element => (treeSearchMethod cmp fuel t (some element)).map fun value => value ≠ none

/-- The part of `tree_set_add` after the search: the element is its own value. -/
def treeSetInsert (fuel : ℕ) (a : Allocator) (cmp : α → α → ℤ) (t : RbTree α α) (element : α) :
    Option (Bool × RbTree α α × Allocator) :=
  (rbInsertMethod cmp fuel a t (some element) (some element)).map fun (t', _, a') =>
    (decide (treeSetSize t' > treeSetSize t), t', a')

/-- `tree_set_add`. -/
def treeSetAdd (fuel : ℕ) (a : Allocator) (cmp : α → α → ℤ) (t : RbTree α α)
    (element : Option α) : Option (Bool × RbTree α α × Allocator) :=
  match element with
  | none => some (false, t, a)
  | some element => do
    let value ← treeSearchMethod cmp fuel t (some element)
    if value ≠ none then some (false, t, a) else treeSetInsert fuel a cmp t element

/-- `tree_set_remove`. -/
def treeSetRemove (fuel : ℕ) (cmp : α → α → ℤ) (t : RbTree α α) (element : Option α) :
    Option (Bool × RbTree α α) :=
  match element with
  | none => some (false, t)
  | some element =>
    (rbDeleteMethod cmp fuel t (some element)).map fun (t', _) =>
      (decide (treeSetSize t' < treeSetSize t), t')

/-- `tree_set_to_list`, with the list that `tree_set_collect_cb` adds to as the state of the
traversal. -/
def treeSetToList (fuel : ℕ) (a : Allocator) (t : RbTree α α) :
    Option (Option (ArrayList (Option α)) × Allocator) :=
  match createElements a (treeSetSize t) with
  | (none, a) => some (none, a)
  | (some out, a) =>
    (treeInOrderTraverseMethod fuel t (fun out key _ => append out (some key)) (out, a)).map
      fun out => (some out.1, out.2)

/-- `tree_set_create_impl`: a tree, and a `tree_set_impl` for it. -/
def treeSetCreateImpl [Inhabited α] (a : Allocator) (cmp : α → α → ℤ) :
    Option (Backend α) × Allocator :=
  match createTree a with
  | (none, a) => (none, a)
  | (some t, a) =>
    let (impl, a) := a.alloc
    (if impl then some (.tree cmp t) else none, a)

/-! ## The methods -/

variable [DecidableEq α]

/-- `set_add_method`. -/
def setAddMethod (fuel : ℕ) (a : Allocator) (self : SetImpl α) (element : Option α) :
    Option (Bool × SetImpl α × Allocator) :=
  match self.backend with
  | .hash impl m =>
    let (added, m', a') := hashSetAdd a impl m element
    some (added, { self with backend := .hash impl m' }, a')
  | .tree cmp t =>
    (treeSetAdd fuel a cmp t element).map fun (added, t', a') =>
      (added, { self with backend := .tree cmp t' }, a')

/-- `set_contains_method`. -/
def setContainsMethod (fuel : ℕ) (self : SetImpl α) (element : Option α) : Option Bool :=
  match self.backend with
  | .hash impl m => some (hashSetContains impl m element)
  | .tree cmp t => treeSetContains fuel cmp t element

/-- `set_remove_method`. -/
def setRemoveMethod (fuel : ℕ) (self : SetImpl α) (element : Option α) :
    Option (Bool × SetImpl α) :=
  match self.backend with
  | .hash impl m =>
    let (removed, m') := hashSetRemove impl m element
    some (removed, { self with backend := .hash impl m' })
  | .tree cmp t =>
    (treeSetRemove fuel cmp t element).map fun (removed, t') =>
      (removed, { self with backend := .tree cmp t' })

/-- `set_size_method`. -/
def setSizeMethod (self : SetImpl α) : ℤ :=
  match self.backend with
  | .hash _ m => hashSetSize m
  | .tree _ t => treeSetSize t

/-- `set_to_list_method`. -/
def setToListMethod (fuel : ℕ) (a : Allocator) (self : SetImpl α) :
    Option (Option (ArrayList (Option α)) × Allocator) :=
  match self.backend with
  | .hash _ m => some (hashSetToList a m)
  | .tree _ t => treeSetToList fuel a t

/-- `sets_are_compatible`. -/
def setsAreCompatible (lhs rhs : SetImpl α) : Bool :=
  lhs.cmp.addr = rhs.cmp.addr ∧ lhs.hash.map FnPtr.addr = rhs.hash.map FnPtr.addr ∧
    lhs.type = rhs.type

/-! ## Creation -/

/-- The functions of a hash set: both are given, or neither. -/
def hashSetFunctions (ptr : α → UInt64) (cmp : Option (FnPtr (α → α → ℤ)))
    (hash : Option (FnPtr (α → ℕ → ℕ))) :
    Option (FnPtr (α → α → ℤ) × FnPtr (α → ℕ → ℕ)) :=
  match cmp, hash with
  | none, none => some (setDefaultPtrCompare ptr, setDefaultPtrHash ptr)
  | some cmp, some hash => some (cmp, hash)
  | _, _ => none

/-- The part of `create_set_with_capacity` that fills in the `set_impl`. -/
def createState [Inhabited α] (ptr : α → UInt64) (a : Allocator) (type : SetType)
    (cmp : Option (FnPtr (α → α → ℤ))) (hash : Option (FnPtr (α → ℕ → ℕ))) (capacityHint : ℤ) :
    Option (SetImpl α) × Allocator :=
  match type with
  | .hash =>
    match hashSetFunctions ptr cmp hash with
    | none => (none, a)
    | some (cmp, hash) =>
      let (backend, a) := hashSetCreateImpl a capacityHint cmp.call hash.call
      (backend.map fun backend => ⟨.hash, cmp, some hash, backend⟩, a)
  | .tree =>
    let cmp := cmp.getD (setDefaultPtrCompare ptr)
    let (backend, a) := treeSetCreateImpl a cmp.call
    (backend.map fun backend => ⟨.tree, cmp, none, backend⟩, a)

/-- `create_set_with_capacity`. -/
def createSetWithCapacity [Inhabited α] (ptr : α → UInt64) (a : Allocator) (type : SetType)
    (cmp : Option (FnPtr (α → α → ℤ))) (hash : Option (FnPtr (α → ℕ → ℕ))) (capacityHint : ℤ) :
    Option (SetImpl α) × Allocator :=
  let (out, a) := a.alloc
  if out then
    let (state, a) := a.alloc
    if state then createState ptr a type cmp hash capacityHint else (none, a)
  else (none, a)

/-- `create_set`. -/
def createSet [Inhabited α] (ptr : α → UInt64) (a : Allocator) (type : SetType)
    (cmp : Option (FnPtr (α → α → ℤ))) (hash : Option (FnPtr (α → ℕ → ℕ))) :
    Option (SetImpl α) × Allocator :=
  createSetWithCapacity ptr a type cmp hash 0

/-! ## Operations on two sets -/

/-- One step of a loop that adds the elements of a list: `keep` is the test in front of the
call. -/
def addKept (fuel : ℕ) (keep : Option α → Option Bool) (out : SetImpl α × Allocator)
    (element : Option α) : Option (SetImpl α × Allocator) :=
  match keep element with
  | none => none
  | some false => some out
  | some true => (setAddMethod fuel out.2 out.1 element).map Prod.snd

/-- Add to `out` the elements of `source` that pass the test; `NULL` when there is no list of
them. -/
def addElements (fuel : ℕ) (keep : Option α → Option Bool) (source out : SetImpl α)
    (a : Allocator) : Option (Option (SetImpl α) × Allocator) := do
  let (items, a) ← setToListMethod fuel a source
  match items with
  | none => return (none, a)
  | some items =>
    let (out, a) ← (List.range items.size).foldlM
      (fun out (i : ℕ) => addKept fuel keep out (items.get i).join) (out, a)
    return (some out, a)

variable [Inhabited α] (ptr : α → UInt64)

/-- `set_union_with_method`. -/
def setUnionWithMethod (fuel : ℕ) (a : Allocator) (self other : SetImpl α) :
    Option (Option (SetImpl α) × Allocator) :=
  if setsAreCompatible self other then
    let cap := int32 (setSizeMethod self + setSizeMethod other)
    match createSetWithCapacity ptr a self.type (some self.cmp) self.hash cap with
    | (none, a) => some (none, a)
    | (some out, a) => do
      let (out, a) ← addElements fuel (fun _ => some true) self out a
      match out with
      | none => return (none, a)
      | some out => addElements fuel (fun _ => some true) other out a
  else some (none, a)

/-- `set_intersection_with_method`. -/
def setIntersectionWithMethod (fuel : ℕ) (a : Allocator) (self other : SetImpl α) :
    Option (Option (SetImpl α) × Allocator) :=
  if setsAreCompatible self other then
    let (iter, matching) :=
      if setSizeMethod other < setSizeMethod self then (other, self) else (self, other)
    match createSetWithCapacity ptr a self.type (some self.cmp) self.hash (setSizeMethod iter) with
    | (none, a) => some (none, a)
    | (some out, a) => addElements fuel (setContainsMethod fuel matching) iter out a
  else some (none, a)

/-- `set_difference_with_method`. -/
def setDifferenceWithMethod (fuel : ℕ) (a : Allocator) (self other : SetImpl α) :
    Option (Option (SetImpl α) × Allocator) :=
  if setsAreCompatible self other then
    match createSetWithCapacity ptr a self.type (some self.cmp) self.hash (setSizeMethod self) with
    | (none, a) => some (none, a)
    | (some out, a) =>
      addElements fuel (fun element => (setContainsMethod fuel other element).map not) self out a
  else some (none, a)

omit [Inhabited α] in
/-- `set_is_subset_of_method`: the loop stops at the first element that is missing. -/
def setIsSubsetOfMethod (fuel : ℕ) (a : Allocator) (self other : SetImpl α) :
    Option (Bool × Allocator) :=
  if setsAreCompatible self other then
    match setToListMethod fuel a self with
    | none => none
    | some (none, a) => some (false, a)
    | some (some items, a) =>
      ((List.range items.size).allM fun i : ℕ =>
        setContainsMethod fuel other (items.get i).join).map fun result => (result, a)
  else some (false, a)

end Sets

end OvaLib
