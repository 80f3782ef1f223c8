import Mathlib.Data.Int.Notation
import Mathlib.Logic.Function.Basic
import OvaLib.Types

/-!
# The skip list

`skip_list.c`. Nodes live at addresses, and each field of `skip_node` is a function of the address;
the forward pointers are a function of the level as well. Address 0 is the header. Addresses are
handed out in ascending order and never again, so `free` needs no counterpart.

## The contract

A skip list binds keys to values. An insertion of a key that is there overwrites its value; it keeps
the old key. A search returns the value or `NULL`, and a deletion says whether the key was there.
Insertion and deletion keep the nodes at which they left the levels in an array, on the stack for up
to 32 levels and allocated for more.

## Levels

A new node is on the levels up to one drawn at random, from a generator that belongs to the list.
The seed comes from the clock and from an address, so nothing may depend on it; the list takes it as
an argument. A drawn level above the current one raises that before the node is asked for, and it
stays raised when there is no node to be had. The levels in between are then empty, which does no
harm, and the next deletion lowers the current level again.

## Implementation notes

Nodes and arrays are allocated from two allocators, so that the outcomes of the two kinds can be
told apart. The size is an `int`, counted up and down one by one and never looked at, so that it
wraps around past `INT_MAX` nodes. A walk takes fuel; `none` stands for a walk that runs out of it,
and for following an entry of `update` that was never filled.
-/

namespace OvaLib

/-- `skip_list_impl` with the nodes it owns; `fresh` is the next address. -/
structure SkipList (κ υ : Type*) where
  key : ℕ → κ
  value : ℕ → Option υ
  nodeLevel : ℕ → ℕ
  /-- The next node on a level, from a node on. -/
  forward : ℕ → ℕ → Option ℕ
  maxLevel : ℕ
  level : ℕ
  size : ℤ
  /-- The state of the generator. -/
  seed : UInt32
  fresh : ℕ

namespace SkipList

/-- The header node. -/
def header : ℕ := 0

/-! ## Random levels -/

/-- The xorshift of `next_random`. -/
def nextRandom (seed : UInt32) : UInt32 :=
  let x := seed
  let x := x ^^^ (x <<< 13)
  let x := x ^^^ (x >>> 17)
  let x := x ^^^ (x <<< 5)
  if x ≠ 0 then x else 1

/-- `__builtin_ctz`: the number of trailing zeros, up to the given number of bits. -/
def ctz : ℕ → UInt32 → ℕ
  | 0, _ => 0
  | bits + 1, r => if r % 2 = 1 then 0 else ctz bits (r / 2) + 1

section

variable {κ υ : Type*}

/-- `random_level`, with the list after its seed has moved on. -/
def randomLevel (l : SkipList κ υ) : ℕ × SkipList κ υ :=
  let r := nextRandom l.seed
  let lvl := if r ≠ 0 then ctz 32 r else 32
  (if lvl > l.maxLevel then l.maxLevel else lvl, { l with seed := r })

/-! ## Walks

All three operations walk the same way: from the header along the current level as long as the next
key is less, then one level down, to level 0. -/

/-- `create_node`, at the next address. -/
def createNode (l : SkipList κ υ) (lvl : ℕ) (key : κ) (value : Option υ) : SkipList κ υ :=
  { l with
    forward := fun i a => if a = l.fresh ∧ i ≤ lvl then none else l.forward i a
    key := Function.update l.key l.fresh key
    value := Function.update l.value l.fresh value
    nodeLevel := Function.update l.nodeLevel l.fresh lvl
    fresh := l.fresh + 1 }

/-- Assign a forward pointer. -/
def setForward (l : SkipList κ υ) (i a : ℕ) (v : Option ℕ) : SkipList κ υ :=
  { l with forward := Function.update l.forward i (Function.update (l.forward i) a v) }

/-- Whether `update` can be had: up to 32 entries it is on the stack. -/
def updateArray (l : SkipList κ υ) (arrays : Allocator) : Bool × Allocator :=
  if l.maxLevel + 1 ≤ 32 then (true, arrays) else arrays.alloc

variable (cmp : κ → κ → ℤ)

/-- The inner loop of a walk, on one level. -/
def walk (l : SkipList κ υ) (i : ℕ) (key : κ) : ℕ → ℕ → Option ℕ
  | 0, _ => none
  | fuel + 1, cur =>
    match l.forward i cur with
    | none => some cur
    | some next => if cmp (l.key next) key < 0 then walk l i key fuel next else some cur

/-- The walk down the levels, with the node where each level was left. The first number is how
many levels there still are. -/
def descend (l : SkipList κ υ) (key : κ) (fuel : ℕ) :
    ℕ → ℕ → (ℕ → Option ℕ) → Option (ℕ × (ℕ → Option ℕ))
  | 0, cur, update => some (cur, update)
  | i + 1, cur, update =>
    match walk cmp l i key fuel cur with
    | none => none
    | some cur => descend l key fuel i cur (Function.update update i (some cur))

/-- `cur && cmp(cur->key, key) == 0` -/
def matching (l : SkipList κ υ) (key : κ) (cur : Option ℕ) : Option ℕ :=
  cur.filter fun c => cmp (l.key c) key = 0

/-! ## Insertion -/

/-- The levels above the current one are entered at the header. -/
def raise (l : SkipList κ υ) (newLevel : ℕ) (update : ℕ → Option ℕ) :
    SkipList κ υ × (ℕ → Option ℕ) :=
  if newLevel > l.level then
    ({ l with level := newLevel },
      fun i => if l.level < i ∧ i ≤ newLevel then some header else update i)
  else (l, update)

/-- The new node is linked on the first levels, from the lowest on. -/
def linkLevels (update : ℕ → Option ℕ) (newNode : ℕ) (l : SkipList κ υ) :
    ℕ → Option (SkipList κ υ)
  | 0 => some l
  | i + 1 =>
    match linkLevels update newNode l i, update i with
    | some l, some u => some ((l.setForward i newNode (l.forward i u)).setForward i u newNode)
    | _, _ => none

/-- The part of `sl_insert` for a key that is not there. -/
def insertNew (l : SkipList κ υ) (key : κ) (value : Option υ) (update : ℕ → Option ℕ)
    (nodes : Allocator) : Option (ErrorCode × SkipList κ υ × Allocator) :=
  let (newLevel, l) := l.randomLevel
  let (l, update) := l.raise newLevel update
  let (newNode, nodes) := nodes.alloc
  if newNode then
    (linkLevels update l.fresh (l.createNode newLevel key value) (newLevel + 1)).map fun l =>
      (.success, { l with size := int32 (l.size + 1) }, nodes)
  else some (.errorMemory, l, nodes)

/-- The part of `sl_insert` after the walk. -/
def insertAt (l : SkipList κ υ) (key : κ) (value : Option υ) (cur : ℕ) (update : ℕ → Option ℕ)
    (nodes : Allocator) : Option (ErrorCode × SkipList κ υ × Allocator) :=
  match l.matching cmp key (l.forward 0 cur) with
  | some c => some (.success, { l with value := Function.update l.value c value }, nodes)
  | none => l.insertNew key value update nodes

/-- `sl_insert`. -/
def slInsert (fuel : ℕ) (l : SkipList κ υ) (key : Option κ) (value : Option υ)
    (nodes arrays : Allocator) : Option (ErrorCode × SkipList κ υ × Allocator × Allocator) :=
  match key with
  | none => some (.errorInvalidArg, l, nodes, arrays)
  | some key =>
    let (update, arrays) := l.updateArray arrays
    if update then
      (descend cmp l key fuel (l.level + 1) header fun _ => none).bind fun (cur, update) =>
        (l.insertAt cmp key value cur update nodes).map fun (e, l, nodes) => (e, l, nodes, arrays)
    else some (.errorMemory, l, nodes, arrays)

/-! ## Search -/

/-- `sl_search`; its walk keeps no `update`. -/
def slSearch (fuel : ℕ) (l : SkipList κ υ) (key : Option κ) : Option (Option υ) :=
  match key with
  | none => some none
  | some key =>
    (descend cmp l key fuel (l.level + 1) header fun _ => none).map fun (cur, _) =>
      (l.matching cmp key (l.forward 0 cur)).bind l.value

/-! ## Deletion -/

/-- The node is unlinked from level `i` on, up to the first level it is not on. The first number is
how many levels there still are. -/
def unlinkLevels (update : ℕ → Option ℕ) (cur : ℕ) : ℕ → ℕ → SkipList κ υ → Option (SkipList κ υ)
  | 0, _, l => some l
  | left + 1, i, l =>
    match update i with
    | none => none
    | some u =>
      if l.forward i u ≠ some cur then some l
      else unlinkLevels update cur left (i + 1) (l.setForward i u (l.forward i cur))

/-- The loop that lowers the current level. -/
def lowerLevel (l : SkipList κ υ) : ℕ → ℕ
  | 0 => 0
  | level + 1 => if l.forward (level + 1) header = none then lowerLevel l level else level + 1

/-- The part of `sl_delete` after the walk. -/
def deleteAt (l : SkipList κ υ) (key : κ) (cur : ℕ) (update : ℕ → Option ℕ) :
    Option (ErrorCode × SkipList κ υ) :=
  match l.matching cmp key (l.forward 0 cur) with
  | none => some (.errorNotFound, l)
  | some c =>
    (unlinkLevels update c (l.level + 1) 0 l).map fun l =>
      (.success, { l with size := int32 (l.size - 1), level := lowerLevel l l.level })

/-- `sl_delete`. -/
def slDelete (fuel : ℕ) (l : SkipList κ υ) (key : Option κ) (arrays : Allocator) :
    Option (ErrorCode × SkipList κ υ × Allocator) :=
  match key with
  | none => some (.errorInvalidArg, l, arrays)
  | some key =>
    let (update, arrays) := l.updateArray arrays
    if update then
      (descend cmp l key fuel (l.level + 1) header fun _ => none).bind fun (cur, update) =>
        (l.deleteAt cmp key cur update).map fun (e, l) => (e, l, arrays)
    else some (.errorMemory, l, arrays)

end

/-- `create_skip_list`; the seed it computes is the argument. The object and its `impl` are asked
for as well as the header, which is a node. -/
def createSkipList {κ υ : Type*} [Inhabited κ] (maxLevel : ℤ) (seed : UInt32)
    (nodes arrays : Allocator) : Option (SkipList κ υ) × Allocator × Allocator :=
  if maxLevel < 1 then (none, nodes, arrays)
  else
    let (out, arrays) := arrays.alloc
    let (sl, arrays) := if out then arrays.alloc else (false, arrays)
    let (node, nodes) := if sl then nodes.alloc else (false, nodes)
    let empty : SkipList κ υ :=
      { key := fun _ => default
        value := fun _ => none
        nodeLevel := fun _ => (maxLevel - 1).toNat
        forward := fun _ _ => none
        maxLevel := (maxLevel - 1).toNat
        level := 0
        size := 0
        seed := if seed = 0 then 1 else seed
        fresh := header + 1 }
    (if node then some empty else none, nodes, arrays)

end SkipList

end OvaLib
