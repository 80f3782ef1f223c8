import Mathlib.Data.Int.Notation
import Mathlib.Logic.Function.Basic
import OvaLib.Foundation.RedBlack
import OvaLib.Tree.Calls
import OvaLib.Types

/-!
# The red-black tree

`red_black_tree.c`, with the parts of `tree.c` that call it. Nodes live at addresses, and each field
of `tree_node` is a function of the address, so an assignment is an update of one function. Address
0 is the sentinel `t->nil`; its colour, children and parent are fields like any other, and
`rb_transplant` writes its parent. The fields that rotations and fixups work on come first, as
`Links`.

## The algorithms

Insertion descends to an empty place, links a red node there and repairs the colours upwards.
Deletion unlinks the node of its key if that has an empty side, or else puts the successor in its
place, with the colour of the node. Where the node that was unlinked, or moved, was black, a fixup
starts from what took its old place. That may be the sentinel, whose parent field was set for just
this purpose; the fixup reads it and goes up from there.

## Implementation notes

The mirrored halves of the source are one definition with the side as a parameter. A loop takes fuel
and returns `none` when that runs out. Where the source follows parent and child pointers, the model
reads the same fields in the same order, so that a link that is wrong in the middle of a rotation
would be read as it is.

Addresses are handed out in ascending order and never again, and a node that leaves the tree keeps
its fields here. That `rb_tree_delete` frees it before the fixup, and that nothing reads it from
then on, whatever the memory holds by then, is the subject of `FreedNodes`.
-/

namespace OvaLib

namespace Tree

open Foundation (Side Color)

/-- `t->nil`. -/
def nil : Addr := 0

/-- The fields rotations and fixups work on. -/
structure Links where
  child : Side → Addr → Addr
  /-- For the root it is the sentinel, and for the sentinel whatever was last assigned. -/
  parent : Addr → Addr
  color : Addr → Color
  root : Addr

/-- `tree_impl` with the nodes it owns; `fresh` is the next address. -/
structure RbTree (κ υ : Type*) extends Links where
  key : Addr → κ
  value : Addr → Option υ
  /-- A `size_t`. -/
  size : ℕ
  fresh : Addr

namespace Links

/-- Assign a child field. -/
def setChild (m : Links) (side : Side) (a v : Addr) : Links :=
  { m with child := Function.update m.child side (Function.update (m.child side) a v) }

/-- Assign a parent field. -/
def setParent (m : Links) (a v : Addr) : Links :=
  { m with parent := Function.update m.parent a v }

/-- Assign a colour field. -/
def setColor (m : Links) (a : Addr) (c : Color) : Links :=
  { m with color := Function.update m.color a c }

/-! ## Rotations

The two rotations are each other's mirror images, and so are the tests inside of them. -/

/-- Make the parent of `u`, or the root, point to `v` instead; the child on the given side is
tested first. -/
def replaceChild (m : Links) (side : Side) (u v : Addr) : Links :=
  if m.parent u = nil then { m with root := v }
  else if u = m.child side (m.parent u) then m.setChild side (m.parent u) v
  else m.setChild side.opp (m.parent u) v

/-- A rotation that moves `x` down on the given side. -/
def rotate (side : Side) (m : Links) (x : Addr) : Links :=
  let y := m.child side.opp x
  let m := m.setChild side.opp x (m.child side y)
  let m := if m.child side y ≠ nil then m.setParent (m.child side y) x else m
  let m := m.setParent y (m.parent x)
  let m := m.replaceChild side x y
  let m := m.setChild side y x
  m.setParent x y

/-- `rb_left_rotate`. -/
def rbLeftRotate : Links → Addr → Links := rotate .left

/-- `rb_right_rotate`. -/
def rbRightRotate : Links → Addr → Links := rotate .right

/-! ## Insertion fixup -/

/-- The body of the loop of `rb_insert_fixup`, for a parent on the given side; the second
component is the next `z`. -/
def insertFixupSide (side : Side) (m : Links) (z : Addr) : Links × Addr :=
  let y := m.child side.opp (m.parent (m.parent z))
  if m.color y = .red then
    let m := m.setColor (m.parent z) .black
    let m := m.setColor y .black
    let m := m.setColor (m.parent (m.parent z)) .red
    (m, m.parent (m.parent z))
  else
    let (m, z) :=
      if z = m.child side.opp (m.parent z) then (rotate side m (m.parent z), m.parent z) else (m, z)
    let m := m.setColor (m.parent z) .black
    let m := m.setColor (m.parent (m.parent z)) .red
    (rotate side.opp m (m.parent (m.parent z)), z)

/-- `rb_insert_fixup`. -/
def rbInsertFixup : ℕ → Links → Addr → Option Links
  | 0, _, _ => none
  | fuel + 1, m, z =>
    if m.color (m.parent z) = .red then
      let side :=
        if m.parent z = m.child .left (m.parent (m.parent z)) then Side.left else Side.right
      rbInsertFixup fuel (insertFixupSide side m z).1 (insertFixupSide side m z).2
    else some (m.setColor m.root .black)

/-! ## Deletion fixup

The body of the loop is cut in two where the source reads the sibling again. -/

/-- The first test of the loop body of `rb_delete_fixup`: a red sibling is rotated up. The second
component is `w`. -/
def deleteFixupSibling (side : Side) (m : Links) (x : Addr) : Links × Addr :=
  let w := m.child side.opp (m.parent x)
  if m.color w = .red then
    let m := m.setColor w .black
    let m := m.setColor (m.parent x) .red
    let m := rotate side m (m.parent x)
    (m, m.child side.opp (m.parent x))
  else (m, w)

/-- The rest of the loop body of `rb_delete_fixup`; the second component is the next `x`. -/
def deleteFixupRest (side : Side) (m : Links) (x w : Addr) : Links × Addr :=
  if m.color (m.child side w) = .black ∧ m.color (m.child side.opp w) = .black then
    (m.setColor w .red, m.parent x)
  else
    let (m, w) :=
      if m.color (m.child side.opp w) = .black then
        let m := m.setColor (m.child side w) .black
        let m := m.setColor w .red
        let m := rotate side.opp m w
        (m, m.child side.opp (m.parent x))
      else (m, w)
    let m := m.setColor w (m.color (m.parent x))
    let m := m.setColor (m.parent x) .black
    let m := m.setColor (m.child side.opp w) .black
    let m := rotate side m (m.parent x)
    (m, m.root)

/-- The body of the loop of `rb_delete_fixup`, for `x` on the given side of its parent. -/
def deleteFixupSide (side : Side) (m : Links) (x : Addr) : Links × Addr :=
  deleteFixupRest side (deleteFixupSibling side m x).1 x (deleteFixupSibling side m x).2

/-- `rb_delete_fixup`. -/
def rbDeleteFixup : ℕ → Links → Addr → Option Links
  | 0, _, _ => none
  | fuel + 1, m, x =>
    if x ≠ m.root ∧ m.color x = .black then
      let side := if x = m.child .left (m.parent x) then Side.left else Side.right
      rbDeleteFixup fuel (deleteFixupSide side m x).1 (deleteFixupSide side m x).2
    else some (m.setColor x .black)

/-- `rb_transplant`. -/
def rbTransplant (m : Links) (u v : Addr) : Links :=
  let m := m.replaceChild .left u v
  m.setParent v (m.parent u)

/-- `rb_minimum`. -/
def rbMinimum (m : Links) : ℕ → Addr → Option Addr
  | 0, _ => none
  | fuel + 1, x => if m.child .left x ≠ nil then rbMinimum m fuel (m.child .left x) else some x

end Links

variable {κ υ : Type*}

/-- What `create_tree` returns for `TREE_RED_BLACK`. -/
def createRbTree [Inhabited κ] : RbTree κ υ where
  child := fun _ _ => nil
  parent := fun _ => nil
  color := fun a => if a = nil then .black else .red
  root := nil
  key := fun _ => default
  value := fun _ => none
  size := 0
  fresh := 1

section

variable (cmp : κ → κ → ℤ)

/-! ## Insertion -/

/-- The descent of `rb_tree_insert` from `x`, whose parent is `y`: the node with the key, or the
parent for a new one. -/
def insertDescent (t : RbTree κ υ) (key : κ) : ℕ → Addr → Addr → Option (Addr ⊕ Addr)
  | 0, _, _ => none
  | fuel + 1, x, y =>
    if x = nil then some (.inr y)
    else if cmp key (t.key x) = 0 then some (.inl x)
    else
      insertDescent t key fuel
        (if cmp key (t.key x) < 0 then t.child .left x else t.child .right x) x

/-- The new node of `rb_tree_insert`, linked below `y`. -/
def linkNew (t : RbTree κ υ) (key : κ) (value : Option υ) (y : Addr) : RbTree κ υ :=
  let z := t.fresh
  let m := t.toLinks
  let m := m.setChild .left z nil
  let m := m.setChild .right z nil
  let m := m.setParent z y
  let m := m.setColor z .red
  let m :=
    if y = nil then { m with root := z }
    else if cmp key (t.key y) < 0 then m.setChild .left y z
    else m.setChild .right y z
  { toLinks := m
    key := Function.update t.key z key
    value := Function.update t.value z value
    size := t.size + 1
    fresh := t.fresh + 1 }

/-- `rb_tree_insert`. -/
def rbTreeInsert (fuel : ℕ) (a : Allocator) (t : RbTree κ υ) (key : κ) (value : Option υ) :
    Option (RbTree κ υ × Allocator) :=
  match insertDescent cmp t key fuel t.root nil with
  | none => none
  | some (.inl x) => some ({ t with value := Function.update t.value x value }, a)
  | some (.inr y) =>
    match a.alloc with
    | (false, a') => some (t, a')
    | (true, a') =>
      let t' := linkNew cmp t key value y
      (t'.rbInsertFixup fuel t.fresh).map fun m => ({ t' with toLinks := m }, a')

/-! ## Deletion -/

/-- `rb_search_node`, from `cur`. -/
def rbSearchNode (t : RbTree κ υ) (key : κ) : ℕ → Addr → Option Addr
  | 0, _ => none
  | fuel + 1, cur =>
    if cur = nil then some nil
    else if cmp key (t.key cur) = 0 then some cur
    else
      rbSearchNode t key fuel
        (if cmp key (t.key cur) < 0 then t.child .left cur else t.child .right cur)

/-- The unlinking part of `rb_tree_delete`: the links without `z`, `x`, and
`y_original_color`. -/
def unlinkNode (fuel : ℕ) (m : Links) (z : Addr) : Option (Links × Addr × Color) :=
  if m.child .left z = nil then
    some (m.rbTransplant z (m.child .right z), m.child .right z, m.color z)
  else if m.child .right z = nil then
    some (m.rbTransplant z (m.child .left z), m.child .left z, m.color z)
  else
    (m.rbMinimum fuel (m.child .right z)).map fun y =>
      let yOriginalColor := m.color y
      let x := m.child .right y
      let m :=
        if m.parent y = z then m.setParent x y
        else
          let m := m.rbTransplant y (m.child .right y)
          let m := m.setChild .right y (m.child .right z)
          m.setParent (m.child .right y) y
      let m := m.rbTransplant z y
      let m := m.setChild .left y (m.child .left z)
      let m := m.setParent (m.child .left y) y
      let m := m.setColor y (m.color z)
      (m, x, yOriginalColor)

/-- `rb_tree_delete`. -/
def rbTreeDelete (fuel : ℕ) (t : RbTree κ υ) (key : κ) : Option (RbTree κ υ) :=
  match rbSearchNode cmp t key fuel t.root with
  | none => none
  | some z =>
    if z = nil then some t
    else
      match unlinkNode fuel t.toLinks z with
      | none => none
      | some (m, x, yOriginalColor) =>
        let t' := { t with toLinks := m, size := if t.size > 0 then t.size - 1 else t.size }
        if yOriginalColor = .black then
          (m.rbDeleteFixup fuel x).map fun m' => { t' with toLinks := m' }
        else some t'

/-! ## The methods -/

/-- `tree_insert_method` on a red-black tree. -/
def rbInsertMethod (fuel : ℕ) (a : Allocator) (t : RbTree κ υ) (key : Option κ)
    (value : Option υ) : Option (RbTree κ υ × ErrorCode × Allocator) :=
  match key with
  | none => some (t, .errorInvalidArg, a)
  | some key => (rbTreeInsert cmp fuel a t key value).map fun r => (r.1, .success, r.2)

/-- `tree_delete_method` on a red-black tree. -/
def rbDeleteMethod (fuel : ℕ) (t : RbTree κ υ) (key : Option κ) :
    Option (RbTree κ υ × ErrorCode) :=
  match key with
  | none => some (t, .errorInvalidArg)
  | some key => (rbTreeDelete cmp fuel t key).map fun r => (r, .success)

end

end Tree

end OvaLib
