import Mathlib.Data.Tree.Basic
import OvaLib.Tree.Calls
import OvaLib.Types

/-!
# The AVL tree

`avl_tree.c`, with the parts of `tree.c` that call it. Every function of the source receives a
subtree and returns the one to put in its place, so a `tree_node *` is the subtree it points to:
`BinaryTree.nil` is `NULL`, and a node carries its own address and the fields that are not children.
The parent field holds the address of the parent.

## The algorithm

Both recursions go down to the place of the key and rebalance on the way back. Insertion chooses its
rotation by comparing the key with that of a child, and deletion by the balance of a child. The
source updates the parent field of a child after each recursive call, and once more in rotations;
these assignments are in the model, as nothing else would say that the parent fields are right.

A node with two children is not taken out itself: it gets the key and the value of its successor,
and the successor is deleted from the right subtree by another search for its key.

## Implementation notes

The recursive functions also change `t->size`; insertion takes addresses and allocation attempts
from the counters it threads through. A new node that is not to be had is the empty subtree again,
and the way back rebalances what has not changed. The colour, which only the red-black tree reads,
is left out.
-/

namespace OvaLib

namespace Tree

/-- The fields of `tree_node` other than the children. -/
structure NodeData (κ υ : Type*) where
  addr : Addr
  key : κ
  value : Option υ
  /-- The address of the parent, or `NULL` at the root. -/
  parent : Option Addr
  /-- The stored height, an `int`. -/
  height : ℤ

/-- A `tree_node *` of an AVL tree. -/
abbrev AvlNode (κ υ : Type*) := BinaryTree (NodeData κ υ)

/-- The fields of `tree_impl` that insertion counts with; `fresh` is the next address. -/
structure AvlCounters where
  size : ℕ
  fresh : Addr

/-- `tree_impl`. -/
structure AvlTree (κ υ : Type*) extends AvlCounters where
  root : AvlNode κ υ

variable {κ υ : Type*}

/-- What `create_tree` returns for `TREE_AVL`. -/
def createAvlTree : AvlTree κ υ where
  size := 0
  fresh := 1
  root := .nil

/-- `!n`. -/
def isNull : AvlNode κ υ → Bool
  | .nil => true
  | .node _ _ _ => false

/-- `if (n) n->parent = p`. -/
def avlSetParent (p : Option Addr) : AvlNode κ υ → AvlNode κ υ
  | .nil => .nil
  | .node d l r => .node { d with parent := p } l r

/-- `avl_height`. -/
def avlHeight : AvlNode κ υ → ℤ
  | .nil => 0
  | .node d _ _ => d.height

/-- `avl_update_height`. -/
def avlUpdateHeight : AvlNode κ υ → AvlNode κ υ
  | .nil => .nil
  | .node d l r => .node { d with height := 1 + max (avlHeight l) (avlHeight r) } l r

/-- `avl_balance`. -/
def avlBalance : AvlNode κ υ → ℤ
  | .nil => 0
  | .node _ l r => avlHeight l - avlHeight r

/-! ## Rotations

The source returns the subtree as it was when the child to be moved up is missing. -/

/-- `avl_rotate_right`. -/
def avlRotateRight : AvlNode κ υ → AvlNode κ υ
  | .node y (.node x xl t2) yr =>
    let y' := { y with parent := some x.addr }
    let x' := { x with parent := y.parent }
    avlUpdateHeight (.node x' xl (avlUpdateHeight (.node y' (avlSetParent (some y.addr) t2) yr)))
  | t => t

/-- `avl_rotate_left`. -/
def avlRotateLeft : AvlNode κ υ → AvlNode κ υ
  | .node x xl (.node y t2 yr) =>
    let x' := { x with parent := some y.addr }
    let y' := { y with parent := x.parent }
    avlUpdateHeight (.node y' (avlUpdateHeight (.node x' xl (avlSetParent (some x.addr) t2))) yr)
  | t => t

section

variable (cmp : κ → κ → ℤ)

/-! ## Insertion -/

/-- `avl_new_node`. -/
def avlNewNode (addr : Addr) (key : κ) (value : Option υ) (parent : Option Addr) : AvlNode κ υ :=
  .node { addr, key, value, parent, height := 1 } .nil .nil

/-- `t->cmp(key, n->key)` satisfies `p`, for an `n` that is not `NULL`. -/
def avlCmpKey (p : ℤ → Prop) (key : κ) : AvlNode κ υ → Prop
  | .nil => False
  | .node d _ _ => p (cmp key d.key)

instance (p : ℤ → Prop) [DecidablePred p] (key : κ) (n : AvlNode κ υ) :
    Decidable (avlCmpKey cmp p key n) :=
  match n with
  | .nil => inferInstanceAs (Decidable False)
  | .node d _ _ => inferInstanceAs (Decidable (p (cmp key d.key)))

/-- The end of `avl_insert_node`: the new height of the node, and a rotation where the comparison
with the child's key asks for one. -/
def avlInsertRebalance (key : κ) (d : NodeData κ υ) (l r : AvlNode κ υ) : AvlNode κ υ :=
  let node := avlUpdateHeight (.node d l r)
  let d := { d with height := 1 + max (avlHeight l) (avlHeight r) }
  if 1 < avlBalance node ∧ avlCmpKey cmp (· < 0) key l then
    avlRotateRight node
  else if avlBalance node < -1 ∧ avlCmpKey cmp (0 < ·) key r then
    avlRotateLeft node
  else if 1 < avlBalance node ∧ avlCmpKey cmp (0 < ·) key l then
    avlRotateRight (.node d (avlSetParent (some d.addr) (avlRotateLeft l)) r)
  else if avlBalance node < -1 ∧ avlCmpKey cmp (· < 0) key r then
    avlRotateLeft (.node d l (avlSetParent (some d.addr) (avlRotateRight r)))
  else node

/-- `avl_insert_node`. -/
def avlInsertNode (key : κ) (value : Option υ) :
    AvlNode κ υ → Option Addr → AvlCounters → Allocator → AvlNode κ υ × AvlCounters × Allocator
  | .nil, parent, t, a =>
    match a.alloc with
    | (false, a) => (.nil, t, a)
    | (true, a) =>
      (avlNewNode t.fresh key value parent, { size := t.size + 1, fresh := t.fresh + 1 }, a)
  | .node d l r, _, t, a =>
    if cmp key d.key = 0 then (.node { d with value } l r, t, a)
    else if cmp key d.key < 0 then
      let (l, t, a) := avlInsertNode key value l (some d.addr) t a
      (avlInsertRebalance cmp key d (avlSetParent (some d.addr) l) r, t, a)
    else
      let (r, t, a) := avlInsertNode key value r (some d.addr) t a
      (avlInsertRebalance cmp key d l (avlSetParent (some d.addr) r), t, a)

/-! ## Deletion

The address that stays in the tree need not be that of the key which is deleted. -/

/-- `avl_min_node`: the fields of the leftmost node. -/
def avlMinNode : AvlNode κ υ → Option (NodeData κ υ)
  | .nil => none
  | .node d .nil _ => some d
  | .node _ (.node d l r) _ => avlMinNode (.node d l r)

/-- The end of `avl_delete_node`: the new height of the root, and a rotation where the balance of
the child asks for one. -/
def avlDeleteRebalance (d : NodeData κ υ) (l r : AvlNode κ υ) : AvlNode κ υ :=
  let root := avlUpdateHeight (.node d l r)
  let d := { d with height := 1 + max (avlHeight l) (avlHeight r) }
  if 1 < avlBalance root then
    if 0 ≤ avlBalance l then avlRotateRight root
    else avlRotateRight (.node d (avlSetParent (some d.addr) (avlRotateLeft l)) r)
  else if avlBalance root < -1 then
    if avlBalance r ≤ 0 then avlRotateLeft root
    else avlRotateLeft (.node d l (avlSetParent (some d.addr) (avlRotateRight r)))
  else root

/-- `avl_delete_node`. The `ℕ` is `t->size`. -/
def avlDeleteNode : AvlNode κ υ → κ → ℕ → AvlNode κ υ × ℕ
  | .nil, _, size => (.nil, size)
  | .node d l r, key, size =>
    if cmp key d.key < 0 then
      let (l, size) := avlDeleteNode l key size
      (avlDeleteRebalance d (avlSetParent (some d.addr) l) r, size)
    else if 0 < cmp key d.key then
      let (r, size) := avlDeleteNode r key size
      (avlDeleteRebalance d l (avlSetParent (some d.addr) r), size)
    else
      if isNull l ∨ isNull r then
        (avlSetParent d.parent (if isNull l then r else l), size - 1)
      else
        match avlMinNode r with
        | none => (avlDeleteRebalance d l r, size)
        | some succ =>
          let d := { d with key := succ.key, value := succ.value }
          let (r, size) := avlDeleteNode r succ.key size
          (avlDeleteRebalance d l (avlSetParent (some d.addr) r), size)

end

section

variable (cmp : κ → κ → ℤ)

/-- `avl_tree_insert`. -/
def avlTreeInsert (a : Allocator) (t : AvlTree κ υ) (key : κ) (value : Option υ) :
    AvlTree κ υ × Allocator :=
  let (root, counters, a) := avlInsertNode cmp key value t.root none t.toAvlCounters a
  ({ toAvlCounters := counters, root := avlSetParent none root }, a)

/-- `avl_tree_delete`. -/
def avlTreeDelete (t : AvlTree κ υ) (key : κ) : AvlTree κ υ :=
  let (root, size) := avlDeleteNode cmp t.root key t.size
  { size, fresh := t.fresh, root := avlSetParent none root }

/-- `tree_insert_method` on an AVL tree. -/
def avlInsertMethod (a : Allocator) (t : AvlTree κ υ) (key : Option κ) (value : Option υ) :
    AvlTree κ υ × ErrorCode × Allocator :=
  match key with
  | none => (t, .errorInvalidArg, a)
  | some key =>
    let (t, a) := avlTreeInsert cmp a t key value
    (t, .success, a)

/-- `tree_delete_method` on an AVL tree. -/
def avlDeleteMethod (t : AvlTree κ υ) (key : Option κ) : AvlTree κ υ × ErrorCode :=
  match key with
  | none => (t, .errorInvalidArg)
  | some key => (avlTreeDelete cmp t key, .success)

end

end Tree

end OvaLib
