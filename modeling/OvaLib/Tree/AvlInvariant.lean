import Mathlib.Tactic.Common
import OvaLib.Foundation.TreeContext
import OvaLib.Tree.Avl

/-!
# The shape of the AVL tree

`AvlAt` says what holds at each node: the stored height is the real one, the subtrees differ in
height by at most one, and the children's parent fields name the node. Insertion into a subtree
leaves its height or adds one, and then the subtree is higher on the side of the key: that is why
`avl_insert_node` may choose its rotation by a comparison. Deletion leaves the height or takes one
off.

## Choosing a rotation by a comparison

After an insertion a node may be too high on one side by two. Which rotation helps depends on which
side of the child is the higher one. `avl_insert_node` does not look: it compares the key with that
of the child, since the higher side is the one that grew, and that is the side of the key. `Grown`
is this invariant of the recursion. A subtree that has grown is a new node, or it is strictly higher
on the side of the key; and where the comparison says that the keys are equal, nothing has grown.

For a deletion the higher side of the child can be either one, or neither, and `avl_delete_node`
looks at the balance. A child that is balanced takes the single rotation.

## Main results

* `entries_rotateRight`, `entries_rotateLeft` — a rotation only moves nodes
* `rotateRight_of_high`, `rotateLeftRight_of_high` — the rotations, where a side is too high
* `insertRebalance_of_left`, `insertRebalance_of_right` — the rotations of insertion
* `insertNode_isAvl`, `deleteNode_isAvl` — the recursive functions
-/

namespace OvaLib

namespace Tree

open Foundation

variable {κ υ : Type*}

/-! ## Entries

A rotation keeps the nodes in order. That is all that the refinement has to know about it. -/

/-- The nodes in order: the address of each and what it binds. -/
def entries (n : AvlNode κ υ) : List (Addr × κ × Option υ) :=
  (inorder n).map fun d => (d.addr, d.key, d.value)

@[simp] theorem entries_nil : entries (.nil : AvlNode κ υ) = [] := rfl

@[simp] theorem entries_node (d : NodeData κ υ) (l r : AvlNode κ υ) :
    entries (.node d l r) = entries l ++ (d.addr, d.key, d.value) :: entries r := by
  simp [entries, inorder]

@[simp] theorem entries_setParent (p : Option Addr) (n : AvlNode κ υ) :
    entries (avlSetParent p n) = entries n := by
  cases n <;> simp [avlSetParent]

@[simp] theorem entries_updateHeight (n : AvlNode κ υ) :
    entries (avlUpdateHeight n) = entries n := by
  cases n <;> simp [avlUpdateHeight]

/-- **Rotation to the right** keeps the nodes in order. -/
@[simp] theorem entries_rotateRight (n : AvlNode κ υ) : entries (avlRotateRight n) = entries n := by
  rcases n with _ | ⟨y, _ | ⟨x, xl, t2⟩, yr⟩
  · rfl
  · rfl
  · simp [avlRotateRight]

/-- **Rotation to the left** keeps the nodes in order. -/
@[simp] theorem entries_rotateLeft (n : AvlNode κ υ) : entries (avlRotateLeft n) = entries n := by
  rcases n with _ | ⟨x, xl, _ | ⟨y, t2, yr⟩⟩
  · rfl
  · rfl
  · simp [avlRotateLeft]

@[simp] theorem entries_insertRebalance (cmp : κ → κ → ℤ) (key : κ) (d : NodeData κ υ)
    (l r : AvlNode κ υ) :
    entries (avlInsertRebalance cmp key d l r) = entries (.node d l r) := by
  simp only [avlInsertRebalance]
  split_ifs <;> simp

@[simp] theorem entries_deleteRebalance (d : NodeData κ υ) (l r : AvlNode κ υ) :
    entries (avlDeleteRebalance d l r) = entries (.node d l r) := by
  simp only [avlDeleteRebalance]
  split_ifs <;> simp

/-! ## The invariant -/

/-- The parent field of the node, if there is one. -/
def ParentIs (p : Option Addr) : AvlNode κ υ → Prop
  | .nil => True
  | .node d _ _ => d.parent = p

/-- **What holds at a node** of an AVL tree. -/
structure AvlAt (d : NodeData κ υ) (l r : AvlNode κ υ) : Prop where
  /-- The stored height is the height. -/
  height_eq : d.height = 1 + max (BinaryTree.height l : ℤ) (BinaryTree.height r)
  left_le : BinaryTree.height l ≤ BinaryTree.height r + 1
  right_le : BinaryTree.height r ≤ BinaryTree.height l + 1
  left_parent : ParentIs (some d.addr) l
  right_parent : ParentIs (some d.addr) r

/-- It holds at every node. -/
def IsAvl (n : AvlNode κ υ) : Prop := ForallNodes AvlAt n

theorem isAvl_nil : IsAvl (.nil : AvlNode κ υ) := trivial

theorem isAvl_node {d : NodeData κ υ} {l r : AvlNode κ υ} :
    IsAvl (.node d l r) ↔ AvlAt d l r ∧ IsAvl l ∧ IsAvl r := Iff.rfl

theorem IsAvl.avlHeight_eq {n : AvlNode κ υ} (h : IsAvl n) :
    avlHeight n = (BinaryTree.height n : ℤ) := by
  cases n with
  | nil => rfl
  | node d l r =>
    have hd := h.1.height_eq
    simp only [avlHeight, hd, BinaryTree.height]
    omega

@[simp] theorem avlSetParent_node (p : Option Addr) (d : NodeData κ υ) (l r : AvlNode κ υ) :
    avlSetParent p (.node d l r) = .node { d with parent := p } l r := rfl

theorem avlUpdateHeight_node (d : NodeData κ υ) (l r : AvlNode κ υ) :
    avlUpdateHeight (.node d l r) =
      .node { d with height := 1 + max (avlHeight l) (avlHeight r) } l r := rfl

@[simp] theorem height_setParent (p : Option Addr) (n : AvlNode κ υ) :
    BinaryTree.height (avlSetParent p n) = BinaryTree.height n := by
  cases n <;> rfl

theorem parentIs_setParent (p : Option Addr) (n : AvlNode κ υ) :
    ParentIs p (avlSetParent p n) := by
  cases n with
  | nil => trivial
  | node d l r => rfl

theorem IsAvl.setParent {n : AvlNode κ υ} (h : IsAvl n) (p : Option Addr) :
    IsAvl (avlSetParent p n) := by
  cases n with
  | nil => trivial
  | node d l r => exact ⟨⟨h.1.1, h.1.2, h.1.3, h.1.4, h.1.5⟩, h.2⟩

/-- A node is in order once its height is updated. -/
theorem isAvl_updateHeight {d : NodeData κ υ} {l r : AvlNode κ υ} (hl : IsAvl l) (hr : IsAvl r)
    (hlr : BinaryTree.height l ≤ BinaryTree.height r + 1)
    (hrl : BinaryTree.height r ≤ BinaryTree.height l + 1)
    (hpl : ParentIs (some d.addr) l) (hpr : ParentIs (some d.addr) r) :
    IsAvl (avlUpdateHeight (.node d l r)) := by
  refine isAvl_node.mpr ⟨⟨?_, hlr, hrl, hpl, hpr⟩, hl, hr⟩
  rw [← hl.avlHeight_eq, ← hr.avlHeight_eq]

@[simp] theorem height_updateHeight (n : AvlNode κ υ) :
    BinaryTree.height (avlUpdateHeight n) = BinaryTree.height n := by
  cases n <;> rfl

/-! ## Rotations -/

section

variable {x y z : NodeData κ υ} {a b c e : AvlNode κ υ}

/-- Rotation to the right gives an AVL tree if the subtrees that change their places fit there. The
bounds are those on the three subtrees after the rotation, not on the tree before it, which is out
of balance. -/
theorem rotateRight_isAvl (ha : IsAvl a) (hb : IsAvl b) (hc : IsAvl c)
    (hpa : ParentIs (some x.addr) a) (hpc : ParentIs (some y.addr) c)
    (hbc : BinaryTree.height b ≤ BinaryTree.height c + 1)
    (hcb : BinaryTree.height c ≤ BinaryTree.height b + 1)
    (hle : BinaryTree.height a ≤ max (BinaryTree.height b) (BinaryTree.height c) + 2)
    (hge : max (BinaryTree.height b) (BinaryTree.height c) ≤ BinaryTree.height a) :
    IsAvl (avlRotateRight (.node y (.node x a b) c)) := by
  refine isAvl_updateHeight ha (isAvl_updateHeight (hb.setParent _) hc ?_ ?_
    (parentIs_setParent _ _) hpc) ?_ ?_ hpa rfl
  all_goals simp only [height_setParent, height_updateHeight, BinaryTree.height]; omega

/-- Rotation to the left gives an AVL tree if the subtrees that change their places fit there. -/
theorem rotateLeft_isAvl (ha : IsAvl a) (hb : IsAvl b) (hc : IsAvl c)
    (hpa : ParentIs (some x.addr) a) (hpc : ParentIs (some y.addr) c)
    (hab : BinaryTree.height a ≤ BinaryTree.height b + 1)
    (hba : BinaryTree.height b ≤ BinaryTree.height a + 1)
    (hle : BinaryTree.height c ≤ max (BinaryTree.height a) (BinaryTree.height b) + 2)
    (hge : max (BinaryTree.height a) (BinaryTree.height b) ≤ BinaryTree.height c) :
    IsAvl (avlRotateLeft (.node x a (.node y b c))) := by
  refine isAvl_updateHeight (isAvl_updateHeight ha (hb.setParent _) ?_ ?_ hpa
    (parentIs_setParent _ _)) hc ?_ ?_ rfl hpc
  all_goals simp only [height_setParent, height_updateHeight, BinaryTree.height]; omega

@[simp] theorem height_rotateRight : BinaryTree.height (avlRotateRight (.node y (.node x a b) c)) =
    max (BinaryTree.height a) (max (BinaryTree.height b) (BinaryTree.height c) + 1) + 1 := by
  simp [avlRotateRight, BinaryTree.height]

@[simp] theorem height_rotateLeft : BinaryTree.height (avlRotateLeft (.node x a (.node y b c))) =
    max (max (BinaryTree.height a) (BinaryTree.height b) + 1) (BinaryTree.height c) + 1 := by
  simp [avlRotateLeft, BinaryTree.height]

/-- The double rotation gives an AVL tree if the four subtrees fit where they come to stand. The
parent that the source sets between the two rotations does not matter, as the second sets it again.
-/
theorem rotateLeftRight_isAvl (p : Option Addr) (ha : IsAvl a) (hb : IsAvl b) (hc : IsAvl c)
    (he : IsAvl e) (hpa : ParentIs (some x.addr) a) (hpe : ParentIs (some y.addr) e)
    (hab : BinaryTree.height a ≤ BinaryTree.height b + 1)
    (hba : BinaryTree.height b ≤ BinaryTree.height a + 1)
    (hce : BinaryTree.height c ≤ BinaryTree.height e + 1)
    (hec : BinaryTree.height e ≤ BinaryTree.height c + 1)
    (hl : max (BinaryTree.height a) (BinaryTree.height b) ≤
      max (BinaryTree.height c) (BinaryTree.height e) + 1)
    (hr : max (BinaryTree.height c) (BinaryTree.height e) ≤
      max (BinaryTree.height a) (BinaryTree.height b) + 1) :
    IsAvl (avlRotateRight
      (.node y (avlSetParent p (avlRotateLeft (.node x a (.node z b c)))) e)) := by
  refine isAvl_updateHeight (isAvl_updateHeight ha (hb.setParent _) ?_ ?_ hpa
    (parentIs_setParent _ _)) (isAvl_updateHeight (hc.setParent _) he ?_ ?_
    (parentIs_setParent _ _) hpe) ?_ ?_ rfl rfl
  all_goals simp only [height_setParent, height_updateHeight, BinaryTree.height]; omega

/-- The double rotation to the other side. -/
theorem rotateRightLeft_isAvl (p : Option Addr) (ha : IsAvl a) (hb : IsAvl b) (hc : IsAvl c)
    (he : IsAvl e) (hpa : ParentIs (some x.addr) a) (hpe : ParentIs (some y.addr) e)
    (hab : BinaryTree.height a ≤ BinaryTree.height b + 1)
    (hba : BinaryTree.height b ≤ BinaryTree.height a + 1)
    (hce : BinaryTree.height c ≤ BinaryTree.height e + 1)
    (hec : BinaryTree.height e ≤ BinaryTree.height c + 1)
    (hl : max (BinaryTree.height a) (BinaryTree.height b) ≤
      max (BinaryTree.height c) (BinaryTree.height e) + 1)
    (hr : max (BinaryTree.height c) (BinaryTree.height e) ≤
      max (BinaryTree.height a) (BinaryTree.height b) + 1) :
    IsAvl (avlRotateLeft
      (.node x a (avlSetParent p (avlRotateRight (.node y (.node z b c) e))))) := by
  refine isAvl_updateHeight (isAvl_updateHeight ha (hb.setParent _) ?_ ?_ hpa
    (parentIs_setParent _ _)) (isAvl_updateHeight (hc.setParent _) he ?_ ?_
    (parentIs_setParent _ _) hpe) ?_ ?_ rfl rfl
  all_goals simp only [height_setParent, height_updateHeight, BinaryTree.height]; omega

theorem height_rotateLeftRight (p : Option Addr) : BinaryTree.height (avlRotateRight
      (.node y (avlSetParent p (avlRotateLeft (.node x a (.node z b c)))) e)) =
    max (max (BinaryTree.height a) (BinaryTree.height b) + 1)
      (max (BinaryTree.height c) (BinaryTree.height e) + 1) + 1 := by
  simp [avlRotateLeft, avlUpdateHeight_node, BinaryTree.height]

theorem height_rotateRightLeft (p : Option Addr) : BinaryTree.height (avlRotateLeft
      (.node x a (avlSetParent p (avlRotateRight (.node y (.node z b c) e))))) =
    max (max (BinaryTree.height a) (BinaryTree.height b) + 1)
      (max (BinaryTree.height c) (BinaryTree.height e) + 1) + 1 := by
  simp [avlRotateRight, avlUpdateHeight_node, BinaryTree.height]

/-! ## A subtree that is too high

One side is two levels higher. A single rotation does where the outer grandchild is no lower than
the inner one, and a double rotation otherwise. -/

variable {d : NodeData κ υ} {l r : AvlNode κ υ}

/-- The balance that the source computes from the stored heights is the difference of the real ones.
-/
theorem avlBalance_updateHeight (hl : IsAvl l) (hr : IsAvl r) :
    avlBalance (avlUpdateHeight (.node d l r)) =
      (BinaryTree.height l : ℤ) - BinaryTree.height r := by
  simp only [avlUpdateHeight, avlBalance, hl.avlHeight_eq, hr.avlHeight_eq]

/-- The left subtree is two levels higher and not on its inner side: one rotation puts that right.
-/
theorem rotateRight_of_high (hl : IsAvl (.node x a b)) (hr : IsAvl r)
    (hpr : ParentIs (some d.addr) r) (hba : BinaryTree.height b ≤ BinaryTree.height a)
    (hhigh : BinaryTree.height (.node x a b) = BinaryTree.height r + 2) :
    IsAvl (avlRotateRight (avlUpdateHeight (.node d (.node x a b) r))) ∧
      BinaryTree.height (avlRotateRight (avlUpdateHeight (.node d (.node x a b) r))) =
        BinaryTree.height b + 2 := by
  obtain ⟨hx, ha, hb⟩ := isAvl_node.mp hl
  have hle := hx.left_le
  rw [BinaryTree.height] at hhigh
  constructor
  · refine rotateRight_isAvl ha hb hr hx.left_parent hpr ?_ ?_ ?_ ?_
    all_goals omega
  · rw [avlUpdateHeight, height_rotateRight]
    omega

/-- The right subtree is two levels higher and not on its inner side. -/
theorem rotateLeft_of_high (hl : IsAvl l) (hr : IsAvl (.node y c e))
    (hpl : ParentIs (some d.addr) l) (hce : BinaryTree.height c ≤ BinaryTree.height e)
    (hhigh : BinaryTree.height (.node y c e) = BinaryTree.height l + 2) :
    IsAvl (avlRotateLeft (avlUpdateHeight (.node d l (.node y c e)))) ∧
      BinaryTree.height (avlRotateLeft (avlUpdateHeight (.node d l (.node y c e)))) =
        BinaryTree.height c + 2 := by
  obtain ⟨hy, hc, he⟩ := isAvl_node.mp hr
  have hle := hy.right_le
  rw [BinaryTree.height] at hhigh
  constructor
  · refine rotateLeft_isAvl hl hc he hpl hy.right_parent ?_ ?_ ?_ ?_
    all_goals omega
  · rw [avlUpdateHeight, height_rotateLeft]
    omega

/-- The left subtree is two levels higher on its inner side: that needs two rotations. -/
theorem rotateLeftRight_of_high (p : Option Addr) (hl : IsAvl (.node x a b)) (hr : IsAvl r)
    (hpr : ParentIs (some d.addr) r) (hab : BinaryTree.height a < BinaryTree.height b)
    (hhigh : BinaryTree.height (.node x a b) = BinaryTree.height r + 2) :
    IsAvl (avlRotateRight (.node d (avlSetParent p (avlRotateLeft (.node x a b))) r)) ∧
      BinaryTree.height (avlRotateRight
        (.node d (avlSetParent p (avlRotateLeft (.node x a b))) r)) =
          BinaryTree.height (.node x a b) := by
  obtain ⟨hx, ha, hb⟩ := isAvl_node.mp hl
  have hle := hx.right_le
  rcases b with _ | ⟨z, b, c⟩
  · exact absurd hab (Nat.not_lt_zero _)
  · obtain ⟨hz, hb, hc⟩ := isAvl_node.mp hb
    have hz₁ := hz.left_le
    have hz₂ := hz.right_le
    simp only [BinaryTree.height] at hhigh hab hle
    constructor
    · refine rotateLeftRight_isAvl p ha hb hc hr hx.left_parent hpr ?_ ?_ ?_ ?_ ?_ ?_
      all_goals omega
    · rw [height_rotateLeftRight, BinaryTree.height, BinaryTree.height]
      omega

/-- The right subtree is two levels higher on its inner side. -/
theorem rotateRightLeft_of_high (p : Option Addr) (hl : IsAvl l) (hr : IsAvl (.node y c e))
    (hpl : ParentIs (some d.addr) l) (hec : BinaryTree.height e < BinaryTree.height c)
    (hhigh : BinaryTree.height (.node y c e) = BinaryTree.height l + 2) :
    IsAvl (avlRotateLeft (.node d l (avlSetParent p (avlRotateRight (.node y c e))))) ∧
      BinaryTree.height (avlRotateLeft
        (.node d l (avlSetParent p (avlRotateRight (.node y c e))))) =
          BinaryTree.height (.node y c e) := by
  obtain ⟨hy, hc, he⟩ := isAvl_node.mp hr
  have hle := hy.left_le
  rcases c with _ | ⟨z, b, c⟩
  · exact absurd hec (Nat.not_lt_zero _)
  · obtain ⟨hz, hb, hc⟩ := isAvl_node.mp hc
    have hz₁ := hz.left_le
    have hz₂ := hz.right_le
    simp only [BinaryTree.height] at hhigh hec hle
    constructor
    · refine rotateRightLeft_isAvl p hl hb hc he hpl hy.right_parent ?_ ?_ ?_ ?_ ?_ ?_
      all_goals omega
    · rw [height_rotateRightLeft, BinaryTree.height, BinaryTree.height]
      omega

end

/-! ## Insertion

The four cases of the source, in two lemmas for the two sides. -/

section

variable {cmp : κ → κ → ℤ} {key : κ} {d : NodeData κ υ} {l r : AvlNode κ υ}

/-- A subtree that has grown: a new node, or one that is higher on the side of the key. The source
finds the kind of rotation by comparing the key again, and this is what makes that comparison right.
-/
def Grown (cmp : κ → κ → ℤ) (key : κ) : AvlNode κ υ → Prop
  | .nil => False
  | .node d l r => (BinaryTree.height l = 0 ∧ BinaryTree.height r = 0) ∨
      (cmp key d.key < 0 ∧ BinaryTree.height l = BinaryTree.height r + 1) ∨
      (0 < cmp key d.key ∧ BinaryTree.height r = BinaryTree.height l + 1)

theorem Grown.setParent {n : AvlNode κ υ} (h : Grown cmp key n) (p : Option Addr) :
    Grown cmp key (avlSetParent p n) := by
  cases n with
  | nil => exact h
  | node d l r => exact h

/-- No rotation where the subtrees differ by at most one. -/
theorem insertRebalance_of_balanced (hl : IsAvl l) (hr : IsAvl r)
    (hlr : BinaryTree.height l ≤ BinaryTree.height r + 1)
    (hrl : BinaryTree.height r ≤ BinaryTree.height l + 1) :
    avlInsertRebalance cmp key d l r = avlUpdateHeight (.node d l r) := by
  have hbal := avlBalance_updateHeight (d := d) hl hr
  have hle : ¬1 < avlBalance (avlUpdateHeight (.node d l r)) := by omega
  have hge : ¬avlBalance (avlUpdateHeight (.node d l r)) < -1 := by omega
  simp only [avlInsertRebalance, hle, hge, false_and, if_false]

/-- **The left subtree has grown** beyond the balance: the tree gets its old height back, so nothing
above it changes. -/
theorem insertRebalance_of_left (hl : IsAvl l) (hr : IsAvl r) (hgrown : Grown cmp key l)
    (hlr : BinaryTree.height l = BinaryTree.height r + 2) (hpr : ParentIs (some d.addr) r) :
    IsAvl (avlInsertRebalance cmp key d l r) ∧
      BinaryTree.height (avlInsertRebalance cmp key d l r) = BinaryTree.height l := by
  have hbal := avlBalance_updateHeight (d := d) hl hr
  have hleft : 1 < avlBalance (avlUpdateHeight (.node d l r)) := by omega
  have hnot : ¬avlBalance (avlUpdateHeight (.node d l r)) < -1 := by omega
  rcases l with _ | ⟨x, a, b⟩
  · exact hgrown.elim
  · rcases hgrown with hleaf | ⟨hlt, hab⟩ | ⟨hgt, hba⟩
    · rw [BinaryTree.height] at hlr
      omega
    · have hres : avlInsertRebalance cmp key d (.node x a b) r =
          avlRotateRight (avlUpdateHeight (.node d (.node x a b) r)) :=
        if_pos ⟨hleft, hlt⟩
      obtain ⟨havl, hheight⟩ := rotateRight_of_high hl hr hpr (by omega) hlr
      rw [hres]
      refine ⟨havl, hheight.trans ?_⟩
      rw [BinaryTree.height]
      omega
    · have hres : avlInsertRebalance cmp key d (.node x a b) r = avlRotateRight
          (.node { d with height := 1 + max (avlHeight (.node x a b)) (avlHeight r) }
            (avlSetParent (some d.addr) (avlRotateLeft (.node x a b))) r) := by
        simp only [avlInsertRebalance, hleft, hnot, true_and, false_and, if_false, avlCmpKey,
          if_neg (not_lt.mpr hgt.le), if_pos hgt]
      rw [hres]
      exact rotateLeftRight_of_high _ hl hr hpr (by omega) hlr

/-- **The right subtree has grown** beyond the balance. -/
theorem insertRebalance_of_right (hl : IsAvl l) (hr : IsAvl r) (hgrown : Grown cmp key r)
    (hrl : BinaryTree.height r = BinaryTree.height l + 2) (hpl : ParentIs (some d.addr) l) :
    IsAvl (avlInsertRebalance cmp key d l r) ∧
      BinaryTree.height (avlInsertRebalance cmp key d l r) = BinaryTree.height r := by
  have hbal := avlBalance_updateHeight (d := d) hl hr
  have hright : avlBalance (avlUpdateHeight (.node d l r)) < -1 := by omega
  have hnot : ¬1 < avlBalance (avlUpdateHeight (.node d l r)) := by omega
  rcases r with _ | ⟨y, c, e⟩
  · exact hgrown.elim
  · rcases hgrown with hleaf | ⟨hlt, hce⟩ | ⟨hgt, hec⟩
    · rw [BinaryTree.height] at hrl
      omega
    · have hres : avlInsertRebalance cmp key d l (.node y c e) = avlRotateLeft
          (.node { d with height := 1 + max (avlHeight l) (avlHeight (.node y c e)) } l
            (avlSetParent (some d.addr) (avlRotateRight (.node y c e)))) := by
        simp only [avlInsertRebalance, hright, hnot, true_and, false_and, if_false, avlCmpKey,
          if_neg (not_lt.mpr hlt.le), if_pos hlt]
      rw [hres]
      exact rotateRightLeft_of_high _ hl hr hpl (by omega) hrl
    · have hres : avlInsertRebalance cmp key d l (.node y c e) =
          avlRotateLeft (avlUpdateHeight (.node d l (.node y c e))) :=
        (if_neg fun h => hnot h.1).trans (if_pos ⟨hright, hgt⟩)
      obtain ⟨havl, hheight⟩ := rotateLeft_of_high hl hr hpl (by omega) hrl
      rw [hres]
      refine ⟨havl, hheight.trans ?_⟩
      rw [BinaryTree.height]
      omega

/-- **A new node or one more level**: insertion into an AVL tree, by induction on the tree. Without
memory for the node the tree is as it was, which is the first case. -/
theorem insertNode_isAvl (cmp : κ → κ → ℤ) (key : κ) (value : Option υ) {n : AvlNode κ υ}
    (hn : IsAvl n) (parent : Option Addr) (t : AvlCounters) (a : Allocator) :
    ∀ n', n' = (avlInsertNode cmp key value n parent t a).1 → IsAvl n' ∧
      (BinaryTree.height n' = BinaryTree.height n ∨
        BinaryTree.height n' = BinaryTree.height n + 1 ∧ Grown cmp key n') := by
  induction n generalizing parent t a with
  | nil =>
    rintro n' rfl
    rw [avlInsertNode]
    split
    · exact ⟨isAvl_nil, .inl rfl⟩
    · refine ⟨?_, .inr ⟨rfl, .inl ⟨rfl, rfl⟩⟩⟩
      exact isAvl_node.mpr ⟨⟨by simp, by simp, by simp, trivial, trivial⟩, isAvl_nil, isAvl_nil⟩
  | node d l r ihl ihr =>
    obtain ⟨hd, hl, hr⟩ := isAvl_node.mp hn
    have hlr := hd.left_le
    have hrl := hd.right_le
    rintro n' rfl
    rw [avlInsertNode]
    split_ifs with heq hlt
    · exact ⟨isAvl_node.mpr ⟨⟨hd.1, hd.2, hd.3, hd.4, hd.5⟩, hl, hr⟩, .inl rfl⟩
    · obtain ⟨l', hl'⟩ : ∃ l', l' = (avlInsertNode cmp key value l (some d.addr) t a).1 := ⟨_, rfl⟩
      obtain ⟨hl'avl, hheight⟩ := ihl hl (some d.addr) t a l' hl'
      simp only [← hl']
      have hp := parentIs_setParent (some d.addr) l'
      have hs := hl'avl.setParent (some d.addr)
      by_cases hbig : BinaryTree.height l' = BinaryTree.height r + 2
      · -- the left subtree was the higher one and has grown
        obtain ⟨-, hgrown⟩ := hheight.resolve_left (by omega)
        obtain ⟨hres, hh⟩ := insertRebalance_of_left (d := d) hs hr (hgrown.setParent _)
          (by rw [height_setParent]; omega) hd.right_parent
        refine ⟨hres, .inl ?_⟩
        rw [hh, height_setParent, BinaryTree.height]
        omega
      · rw [insertRebalance_of_balanced hs hr (by rw [height_setParent]; omega)
          (by rw [height_setParent]; omega)]
        refine ⟨isAvl_updateHeight hs hr (by rw [height_setParent]; omega)
          (by rw [height_setParent]; omega) hp hd.right_parent, ?_⟩
        simp only [BinaryTree.height, height_setParent, avlUpdateHeight_node, Grown]
        omega
    · obtain ⟨r', hr'⟩ : ∃ r', r' = (avlInsertNode cmp key value r (some d.addr) t a).1 := ⟨_, rfl⟩
      obtain ⟨hr'avl, hheight⟩ := ihr hr (some d.addr) t a r' hr'
      simp only [← hr']
      have hp := parentIs_setParent (some d.addr) r'
      have hs := hr'avl.setParent (some d.addr)
      by_cases hbig : BinaryTree.height r' = BinaryTree.height l + 2
      · -- the right subtree was the higher one and has grown
        obtain ⟨-, hgrown⟩ := hheight.resolve_left (by omega)
        obtain ⟨hres, hh⟩ := insertRebalance_of_right (d := d) hl hs (hgrown.setParent _)
          (by rw [height_setParent]; omega) hd.left_parent
        refine ⟨hres, .inl ?_⟩
        rw [hh, height_setParent, BinaryTree.height]
        omega
      · rw [insertRebalance_of_balanced hl hs (by rw [height_setParent]; omega)
          (by rw [height_setParent]; omega)]
        refine ⟨isAvl_updateHeight hl hs (by rw [height_setParent]; omega)
          (by rw [height_setParent]; omega) hd.left_parent hp, ?_⟩
        simp only [BinaryTree.height, height_setParent, avlUpdateHeight_node, Grown]
        omega

end

/-! ## Deletion -/

section

variable {cmp : κ → κ → ℤ} {d : NodeData κ υ} {l r : AvlNode κ υ}

/-- The left subtree is two levels higher: one of these levels goes, or none. -/
theorem deleteRebalance_of_leftHigh (hl : IsAvl l) (hr : IsAvl r) (hpr : ParentIs (some d.addr) r)
    (hlr : BinaryTree.height l = BinaryTree.height r + 2) :
    IsAvl (avlDeleteRebalance d l r) ∧
      (BinaryTree.height (avlDeleteRebalance d l r) = BinaryTree.height l + 1 ∨
        BinaryTree.height (avlDeleteRebalance d l r) = BinaryTree.height l) := by
  have hbal := avlBalance_updateHeight (d := d) hl hr
  have hleft : 1 < avlBalance (avlUpdateHeight (.node d l r)) := by omega
  rcases l with _ | ⟨x, a, b⟩
  · simp only [BinaryTree.height] at hlr
    omega
  obtain ⟨hx, ha, hb⟩ := isAvl_node.mp hl
  have hle := hx.left_le
  have hchild : avlBalance (.node x a b) = (BinaryTree.height a : ℤ) - BinaryTree.height b := by
    rw [avlBalance, ha.avlHeight_eq, hb.avlHeight_eq]
  simp only [avlDeleteRebalance, if_pos hleft]
  split_ifs with hsingle
  · obtain ⟨havl, hheight⟩ := rotateRight_of_high hl hr hpr (by omega) hlr
    refine ⟨havl, ?_⟩
    rw [hheight, BinaryTree.height]
    omega
  · obtain ⟨havl, hheight⟩ := rotateLeftRight_of_high (some d.addr) hl hr
      (d := { d with height := 1 + max (avlHeight (.node x a b)) (avlHeight r) }) hpr (by omega) hlr
    exact ⟨havl, .inr hheight⟩

/-- The right subtree is two levels higher. -/
theorem deleteRebalance_of_rightHigh (hl : IsAvl l) (hr : IsAvl r)
    (hpl : ParentIs (some d.addr) l) (hrl : BinaryTree.height r = BinaryTree.height l + 2) :
    IsAvl (avlDeleteRebalance d l r) ∧
      (BinaryTree.height (avlDeleteRebalance d l r) = BinaryTree.height r + 1 ∨
        BinaryTree.height (avlDeleteRebalance d l r) = BinaryTree.height r) := by
  have hbal := avlBalance_updateHeight (d := d) hl hr
  have hright : avlBalance (avlUpdateHeight (.node d l r)) < -1 := by omega
  have hnot : ¬1 < avlBalance (avlUpdateHeight (.node d l r)) := by omega
  rcases r with _ | ⟨y, c, e⟩
  · simp only [BinaryTree.height] at hrl
    omega
  obtain ⟨hy, hc, he⟩ := isAvl_node.mp hr
  have hle := hy.right_le
  have hchild : avlBalance (.node y c e) = (BinaryTree.height c : ℤ) - BinaryTree.height e := by
    rw [avlBalance, hc.avlHeight_eq, he.avlHeight_eq]
  simp only [avlDeleteRebalance, if_neg hnot, if_pos hright]
  split_ifs with hsingle
  · obtain ⟨havl, hheight⟩ := rotateLeft_of_high hl hr hpl (by omega) hrl
    refine ⟨havl, ?_⟩
    rw [hheight, BinaryTree.height]
    omega
  · obtain ⟨havl, hheight⟩ := rotateRightLeft_of_high (some d.addr) hl hr
      (d := { d with height := 1 + max (avlHeight l) (avlHeight (.node y c e)) }) hpl (by omega) hrl
    exact ⟨havl, .inr hheight⟩

/-- **The rebalancing of deletion**, whatever made the subtrees differ by two: the tree is one level
higher than the higher of the subtrees, or just as high. -/
theorem deleteRebalance_isAvl (hl : IsAvl l) (hr : IsAvl r) (hpl : ParentIs (some d.addr) l)
    (hpr : ParentIs (some d.addr) r) (hlr : BinaryTree.height l ≤ BinaryTree.height r + 2)
    (hrl : BinaryTree.height r ≤ BinaryTree.height l + 2) :
    IsAvl (avlDeleteRebalance d l r) ∧
      (BinaryTree.height (avlDeleteRebalance d l r) =
          max (BinaryTree.height l) (BinaryTree.height r) + 1 ∨
        (BinaryTree.height (avlDeleteRebalance d l r) =
          max (BinaryTree.height l) (BinaryTree.height r) ∧
          (BinaryTree.height l = BinaryTree.height r + 2 ∨
            BinaryTree.height r = BinaryTree.height l + 2))) := by
  by_cases hleft : BinaryTree.height l = BinaryTree.height r + 2
  · obtain ⟨havl, hheight⟩ := deleteRebalance_of_leftHigh hl hr hpr hleft
    exact ⟨havl, by omega⟩
  by_cases hright : BinaryTree.height r = BinaryTree.height l + 2
  · obtain ⟨havl, hheight⟩ := deleteRebalance_of_rightHigh hl hr hpl hright
    exact ⟨havl, by omega⟩
  have hbal := avlBalance_updateHeight (d := d) hl hr
  have hres : avlDeleteRebalance d l r = avlUpdateHeight (.node d l r) :=
    (if_neg (by omega)).trans (if_neg (by omega))
  rw [hres]
  refine ⟨isAvl_updateHeight hl hr (by omega) (by omega) hpl hpr, .inl ?_⟩
  rw [height_updateHeight, BinaryTree.height]

/-- Rebalancing after one of the subtrees has lost at most one level. -/
theorem deleteRebalance_of_lower {d' : NodeData κ υ} {l' r' : AvlNode κ υ}
    (hn : IsAvl (.node d l r)) (hl' : IsAvl l') (hr' : IsAvl r')
    (hpl : ParentIs (some d'.addr) l') (hpr : ParentIs (some d'.addr) r')
    (hleft : BinaryTree.height l' = BinaryTree.height l ∨
      BinaryTree.height l' + 1 = BinaryTree.height l)
    (hright : BinaryTree.height r' = BinaryTree.height r ∨
      BinaryTree.height r' + 1 = BinaryTree.height r)
    (hone : BinaryTree.height l' = BinaryTree.height l ∨
      BinaryTree.height r' = BinaryTree.height r) :
    IsAvl (avlDeleteRebalance d' l' r') ∧
      (BinaryTree.height (avlDeleteRebalance d' l' r') = BinaryTree.height (.node d l r) ∨
        BinaryTree.height (avlDeleteRebalance d' l' r') + 1 =
          BinaryTree.height (.node d l r)) := by
  obtain ⟨hd, hl, hr⟩ := isAvl_node.mp hn
  have hlr := hd.left_le
  have hrl := hd.right_le
  obtain ⟨hres, hh⟩ := deleteRebalance_isAvl hl' hr' hpl hpr (by omega) (by omega)
  refine ⟨hres, ?_⟩
  rw [BinaryTree.height]
  omega

/-- Rebalancing after the left subtree has lost at most one level. -/
theorem deleteRebalance_of_left {l' : AvlNode κ υ} (hn : IsAvl (.node d l r)) (hl' : IsAvl l')
    (hheight : BinaryTree.height l' = BinaryTree.height l ∨
      BinaryTree.height l' + 1 = BinaryTree.height l) :
    ∀ n', n' = avlDeleteRebalance d (avlSetParent (some d.addr) l') r → IsAvl n' ∧
      (BinaryTree.height n' = BinaryTree.height (.node d l r) ∨
        BinaryTree.height n' + 1 = BinaryTree.height (.node d l r)) := by
  rintro n' rfl
  obtain ⟨hd, -, hr⟩ := isAvl_node.mp hn
  rw [← height_setParent (some d.addr) l'] at hheight
  exact deleteRebalance_of_lower hn (hl'.setParent _) hr (parentIs_setParent _ _) hd.right_parent
    hheight (.inl rfl) (.inr rfl)

/-- Rebalancing after the right subtree has lost at most one level. -/
theorem deleteRebalance_of_right (d' : NodeData κ υ) {r' : AvlNode κ υ} (hn : IsAvl (.node d l r))
    (haddr : d'.addr = d.addr) (hr' : IsAvl r')
    (hheight : BinaryTree.height r' = BinaryTree.height r ∨
      BinaryTree.height r' + 1 = BinaryTree.height r) :
    ∀ n', n' = avlDeleteRebalance d' l (avlSetParent (some d'.addr) r') → IsAvl n' ∧
      (BinaryTree.height n' = BinaryTree.height (.node d l r) ∨
        BinaryTree.height n' + 1 = BinaryTree.height (.node d l r)) := by
  rintro n' rfl
  obtain ⟨hd, hl, -⟩ := isAvl_node.mp hn
  rw [← height_setParent (some d'.addr) r'] at hheight
  exact deleteRebalance_of_lower hn hl (hr'.setParent _) (haddr ▸ hd.left_parent)
    (parentIs_setParent _ _) (.inl rfl) hheight (.inl rfl)

/-- **`avl_min_node`** finds the first entry. -/
theorem exists_minNode {n : AvlNode κ υ} (hn : n ≠ .nil) : ∃ succ rest,
    avlMinNode n = some succ ∧ entries n = (succ.addr, succ.key, succ.value) :: rest := by
  induction n with
  | nil => exact absurd rfl hn
  | node d l r ihl _ =>
    rcases l with _ | ⟨x, a, b⟩
    · exact ⟨d, entries r, rfl, by simp⟩
    · obtain ⟨succ, rest, hmin, hrest⟩ := ihl nofun
      refine ⟨succ, rest ++ (d.addr, d.key, d.value) :: entries r, hmin, ?_⟩
      rw [entries_node, hrest, List.cons_append]

/-! The four ways through `avl_delete_node`. -/

theorem deleteNode_of_lt {key : κ} (h : cmp key d.key < 0) (size : ℕ) :
    avlDeleteNode cmp (.node d l r) key size =
      (avlDeleteRebalance d (avlSetParent (some d.addr) (avlDeleteNode cmp l key size).1) r,
        (avlDeleteNode cmp l key size).2) := by
  rw [avlDeleteNode, if_pos h]

theorem deleteNode_of_gt {key : κ} (h : 0 < cmp key d.key) (size : ℕ) :
    avlDeleteNode cmp (.node d l r) key size =
      (avlDeleteRebalance d l (avlSetParent (some d.addr) (avlDeleteNode cmp r key size).1),
        (avlDeleteNode cmp r key size).2) := by
  rw [avlDeleteNode, if_neg (not_lt.mpr h.le), if_pos h]

theorem isNull_iff {n : AvlNode κ υ} : isNull n = true ↔ n = .nil := by
  cases n with
  | nil => simp [isNull]
  | node d l r => simp [isNull]

/-- A node with at most one child gives its place to that child. -/
theorem deleteNode_of_child {key : κ} (h : cmp key d.key = 0) (hnil : l = .nil ∨ r = .nil)
    (size : ℕ) : ∃ child, (child = l ∧ r = .nil ∨ child = r ∧ l = .nil) ∧
      avlDeleteNode cmp (.node d l r) key size = (avlSetParent d.parent child, size - 1) := by
  rw [avlDeleteNode, if_neg h.not_lt, if_neg h.not_gt]
  rcases l with _ | ⟨x, a, b⟩
  · exact ⟨r, .inr ⟨rfl, rfl⟩, rfl⟩
  · obtain rfl := hnil.resolve_left nofun
    exact ⟨_, .inl ⟨rfl, rfl⟩, rfl⟩

/-- A node with two children takes over what its successor binds, and then the successor is deleted
from the right subtree, by its key. -/
theorem deleteNode_of_two {key : κ} (h : cmp key d.key = 0) (hl : l ≠ .nil) (hr : r ≠ .nil)
    {succ : NodeData κ υ} (hmin : avlMinNode r = some succ) (size : ℕ) :
    avlDeleteNode cmp (.node d l r) key size =
      (avlDeleteRebalance { d with key := succ.key, value := succ.value } l
          (avlSetParent (some d.addr) (avlDeleteNode cmp r succ.key size).1),
        (avlDeleteNode cmp r succ.key size).2) := by
  have hnull : ¬(isNull l = true ∨ isNull r = true) := by
    rw [isNull_iff, isNull_iff]
    exact not_or.mpr ⟨hl, hr⟩
  rw [avlDeleteNode, if_neg h.not_lt, if_neg h.not_gt, if_neg hnull, hmin]

/-- **One node or one level less**: deletion from an AVL tree. By induction on the tree with the key
variable, since below a node with two children another key is deleted. -/
theorem deleteNode_isAvl (cmp : κ → κ → ℤ) {n : AvlNode κ υ} (hn : IsAvl n) (key : κ) (size : ℕ) :
    ∀ n', n' = (avlDeleteNode cmp n key size).1 → IsAvl n' ∧
      (BinaryTree.height n' = BinaryTree.height n ∨
        BinaryTree.height n' + 1 = BinaryTree.height n) := by
  induction n generalizing key size with
  | nil =>
    rintro n' rfl
    exact ⟨isAvl_nil, .inl rfl⟩
  | node d l r ihl ihr =>
    obtain ⟨hd, hl, hr⟩ := isAvl_node.mp hn
    have hlr := hd.left_le
    have hrl := hd.right_le
    rintro n' rfl
    rcases lt_trichotomy (cmp key d.key) 0 with hlt | heq | hgt
    · rw [deleteNode_of_lt hlt]
      obtain ⟨hl', hheight⟩ := ihl hl key size _ rfl
      exact deleteRebalance_of_left hn hl' hheight _ rfl
    · by_cases hnil : l = .nil ∨ r = .nil
      · obtain ⟨child, hchild, hdel⟩ := deleteNode_of_child heq hnil size
        rw [hdel]
        rcases hchild with ⟨rfl, rfl⟩ | ⟨rfl, rfl⟩
        · refine ⟨hl.setParent _, .inr ?_⟩
          simp only [height_setParent, BinaryTree.height]
          omega
        · refine ⟨hr.setParent _, .inr ?_⟩
          simp only [height_setParent, BinaryTree.height]
          omega
      · obtain ⟨hlne, hrne⟩ := not_or.mp hnil
        obtain ⟨succ, -, hmin, -⟩ := exists_minNode hrne
        rw [deleteNode_of_two heq hlne hrne hmin]
        obtain ⟨hr', hheight⟩ := ihr hr succ.key size _ rfl
        exact deleteRebalance_of_right { d with key := succ.key, value := succ.value } hn rfl hr'
          hheight _ rfl
    · rw [deleteNode_of_gt hgt]
      obtain ⟨hr', hheight⟩ := ihr hr key size _ rfl
      exact deleteRebalance_of_right d hn rfl hr' hheight _ rfl

end

end Tree

end OvaLib
