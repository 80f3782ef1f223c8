import Mathlib.Data.Int.Notation
import OvaLib.Foundation.Segment
import OvaLib.Types

/-!
# The linked list

`linked_list.c`. Nodes live at addresses, and each field of `linked_list_node` is a function of the
address. The payload is a `void *`, which may be `NULL`. Addresses are handed out in ascending order
and never again, so `free` needs no counterpart, and `clear` only resets the fields.

The walk of an insertion ends where the links do, so it takes fuel, and `none` stands for a walk
that runs out of it. The walks of `get` and `remove` count up or down to the index.

## The cursor

`get` remembers the node that it found, and its index. The next `get` starts from there when that is
nearer than either end, so that reading a list from one end to the other takes one step for each
item. The cursor is data that nothing outside the list can see. It has to be right all the same: a
cursor that is left standing after an insertion or a removal would make `get` return another item.
The source drops it whenever the list changes, which is modelled where it happens.

## The count

`size` is an `int` that every insertion adds one to, without a look at its value. Unlike an array
list, a linked list does not refuse an item at `INT_MAX`; the count wraps around, and what the calls
make of a negative size is in the model as it is in the code.

## Main definitions

* `LinkedList.insert` — its three branches, and the walk of the last one
* `LinkedList.get` — with the choice of where to start
* `LinkedList.remove` — the node is found without the cursor and unlinked
-/

namespace OvaLib

open Foundation (Pointers)

/-- `linked_list_impl` with the nodes it owns; `fresh` is the next address. -/
@[ext] structure LinkedList (α : Type*) extends Pointers ℕ where
  data : ℕ → Option α
  head : Option ℕ
  tail : Option ℕ
  size : ℤ
  cursorNode : Option ℕ
  cursorIndex : ℤ
  fresh : ℕ

namespace LinkedList

variable {α : Type*}

/-- `create_linked_list`. The list object and its `impl` are both asked for. -/
def create (a : Allocator) : Option (LinkedList α) × Allocator :=
  let (lst, a) := a.alloc
  let (impl, a) := a.alloc
  if lst && impl then
    (some ⟨⟨fun _ => none, fun _ => none⟩, fun _ => none, none, none, 0, none, -1, 0⟩, a)
  else (none, a)

/-- Assign a `next` field. -/
def setNext (l : LinkedList α) (a : ℕ) (v : Option ℕ) : LinkedList α :=
  { l with toPointers := l.toPointers.setNext a v }

/-- Assign a `prev` field. -/
def setPrev (l : LinkedList α) (a : ℕ) (v : Option ℕ) : LinkedList α :=
  { l with toPointers := l.toPointers.setPrev a v }

/-- Assign `head`. -/
def setHead (l : LinkedList α) (v : Option ℕ) : LinkedList α := { l with head := v }

/-- Assign `tail`. -/
def setTail (l : LinkedList α) (v : Option ℕ) : LinkedList α := { l with tail := v }

/-- The cursor is dropped. -/
def dropCursor (l : LinkedList α) : LinkedList α := { l with cursorNode := none, cursorIndex := -1 }

/-! ## Insertion -/

/-- The node at the next address gets its payload, and no links. -/
def newNode (l : LinkedList α) (item : Option α) : LinkedList α :=
  { l with
    toPointers := (l.toPointers.setNext l.fresh none).setPrev l.fresh none
    data := Function.update l.data l.fresh item
    fresh := l.fresh + 1 }

/-- The branch of `linked_list_insert` for the index 0. -/
def linkFirst (l : LinkedList α) (newNode : ℕ) : LinkedList α :=
  match l.head with
  | none => (l.setTail newNode).setHead newNode
  | some head => ((l.setNext newNode head).setPrev head newNode).setHead newNode

/-- The branch for the index `size`. -/
def linkLast (l : LinkedList α) (newNode : ℕ) : LinkedList α :=
  let l := l.setPrev newNode l.tail
  let l :=
    match l.tail with
    | none => l
    | some tail => l.setNext tail newNode
  l.setTail newNode

/-- The walk of the last branch, to the node at the index; the direction is the same all along. -/
def seek (m : Pointers ℕ) (index : ℤ) (forward : Bool) : ℕ → Option ℕ → ℤ → Option (Option ℕ)
  | 0, _, _ => none
  | _ + 1, none, _ => some none
  | fuel + 1, some current, currentIndex =>
    if currentIndex = index then some (some current)
    else
      seek m index forward fuel (if forward then m.next current else m.prev current)
        (if forward then currentIndex + 1 else currentIndex - 1)

/-- The links that the walk changes at the node it stops at. -/
def spliceBefore (l : LinkedList α) (newNode current : ℕ) : LinkedList α :=
  let l := l.setNext newNode current
  let l := l.setPrev newNode (l.prev current)
  let l :=
    match l.prev current with
    | none => l
    | some before => l.setNext before newNode
  l.setPrev current newNode

/-- What the walk does at the node it stops at. -/
def linkBefore (l : LinkedList α) (newNode : ℕ) (index : ℤ) (current : ℕ) : LinkedList α :=
  let l := l.spliceBefore newNode current
  let l := if index = 0 then l.setHead newNode else l
  if index = l.size then l.setTail newNode else l

/-- The last branch: the walk, and what it does at the end. -/
def linkInside (l : LinkedList α) (newNode : ℕ) (index : ℤ) : Option (LinkedList α) :=
  let forward : Bool := index < l.size / 2
  let found := seek l.toPointers index forward (l.size.toNat + 1)
    (if forward then l.head else l.tail) (if forward then 0 else l.size - 1)
  found.map fun current => current.elim l (l.linkBefore newNode index)

/-- The three branches of `linked_list_insert`, and the count. -/
def link (l : LinkedList α) (newNode : ℕ) (index : ℤ) : Option (LinkedList α) :=
  let linked :=
    if index = 0 then some (l.linkFirst newNode)
    else if index = l.size then some (l.linkLast newNode)
    else l.linkInside newNode index
  linked.map fun l => { l with size := int32 (l.size + 1) }

/-- `linked_list_insert`. -/
def insert (l : LinkedList α) (item : Option α) (index : ℤ) (a : Allocator) :
    Option (ErrorCode × LinkedList α × Allocator) :=
  if index < 0 ∨ index > l.size then some (.errorIndexOutOfBounds, l, a)
  else
    let (node, a) := a.alloc
    if node then
      (((l.newNode item).dropCursor).link l.fresh index).map fun l => (.success, l, a)
    else some (.errorMemory, l, a)

/-! ## Reading and removing -/

/-- `while (current && start < index)`, forwards; the second component is the counter. -/
def walkNext (m : Pointers ℕ) (index : ℤ) (current : Option ℕ) (start : ℤ) : Option ℕ × ℤ :=
  match current with
  | none => (none, start)
  | some c => if start < index then walkNext m index (m.next c) (start + 1) else (some c, start)
termination_by (index - start).toNat

/-- `while (current && start > index)`, backwards. -/
def walkPrev (m : Pointers ℕ) (index : ℤ) (current : Option ℕ) (start : ℤ) : Option ℕ × ℤ :=
  match current with
  | none => (none, start)
  | some c => if start > index then walkPrev m index (m.prev c) (start - 1) else (some c, start)
termination_by (start - index).toNat

/-- Where `linked_list_get` starts: at the cursor, the head or the tail, whichever is nearest. -/
def startAt (l : LinkedList α) (index : ℤ) : Option ℕ × ℤ :=
  let distHead := index
  let distTail := l.size - 1 - index
  let best := if distHead < distTail then distHead else distTail
  let distCursor := index - l.cursorIndex
  let distCursorAbs := if distCursor < 0 then -distCursor else distCursor
  if l.cursorNode.isSome ∧ l.cursorIndex ≥ 0 ∧ distCursorAbs < best then
    (l.cursorNode, l.cursorIndex)
  else if distHead ≤ distTail then (l.head, 0)
  else (l.tail, l.size - 1)

/-- The node at an index, by the walks of `linked_list_get`. -/
def nodeAt (l : LinkedList α) (index : ℤ) : Option ℕ :=
  let (current, start) := l.startAt index
  let (current, start) := walkNext l.toPointers index current start
  (walkPrev l.toPointers index current start).1

/-- `linked_list_get`. -/
def get (l : LinkedList α) (index : ℤ) : Option α × LinkedList α :=
  if index < 0 ∨ index ≥ l.size then (none, l)
  else
    match l.nodeAt index with
    | none => (none, l)
    | some current => (l.data current, { l with cursorNode := current, cursorIndex := index })

/-- The node `linked_list_remove` takes out. -/
def victim (l : LinkedList α) (index : ℤ) : Option ℕ :=
  if index < l.size / 2 then (walkNext l.toPointers index l.head 0).1
  else (walkPrev l.toPointers index l.tail (l.size - 1)).1

/-- `linked_list_remove` links the neighbours of the node to each other. -/
def unlinkNode (l : LinkedList α) (current : ℕ) : LinkedList α :=
  let l :=
    match l.prev current with
    | some before => l.setNext before (l.next current)
    | none => l.setHead (l.next current)
  let l :=
    match l.next current with
    | some after => l.setPrev after (l.prev current)
    | none => l.setTail (l.prev current)
  { l with size := l.size - 1 }

/-- `linked_list_remove`. -/
def remove (l : LinkedList α) (index : ℤ) : ErrorCode × LinkedList α :=
  if index < 0 ∨ index ≥ l.size then (.errorIndexOutOfBounds, l)
  else
    let l := l.dropCursor
    (.success, (l.victim index).elim l l.unlinkNode)

/-- `linked_list_clear`. -/
def clear (l : LinkedList α) : LinkedList α :=
  { l with head := none, tail := none, size := 0, cursorNode := none, cursorIndex := -1 }

end LinkedList

end OvaLib
