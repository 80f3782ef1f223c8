import Mathlib.Data.List.Nodup
import Mathlib.Data.List.Perm.Basic
import Mathlib.Data.Tree.Basic

/-!
# Binary trees with a hole

Balancing algorithms treat left and right alike, so a node is written here with the child on a given
side and the child on the other. A context is the path from a hole to the root: the nodes passed,
the side the hole is on, and the subtrees hanging off.

The labels of a filled tree are those before the hole, those in it and those after it. A rotation
moves labels between the hole and its first frame without changing that order, and so does any step
that replaces the tree in the hole by one with the same labels. When no label repeats, a label in
the hole is in no frame, which is what an algorithm on memory needs to know that its assignments do
not touch the rest.

A context lists its frames from the hole up, as a program that goes up by parent pointers meets
them.

## Main definitions

* `branch` — a node by its near and far child
* `Frame`, `Context`, `plug` — a tree with a hole, and filling it
* `inorder`, `labelsFrom` — the labels of a tree, from left to right or from a given side
* `before`, `after` — the labels on either side of a hole

## Main results

* `inorder_plug` — the labels of a filled tree
* `nodup_plug_iff`, `nodup_branch_iff` — when no label repeats
-/

namespace Foundation

/-- A side of a node. -/
inductive Side
  | left
  | right
  deriving DecidableEq, Repr

/-- The other side. -/
def Side.opp : Side → Side
  | .left => .right
  | .right => .left

@[simp] theorem Side.opp_opp (side : Side) : side.opp.opp = side := by cases side <;> rfl

@[simp] theorem Side.opp_left : Side.left.opp = .right := rfl

@[simp] theorem Side.opp_right : Side.right.opp = .left := rfl

@[simp] theorem Side.opp_ne (side : Side) : side.opp ≠ side := by cases side <;> simp

@[simp] theorem Side.ne_opp (side : Side) : side ≠ side.opp := by cases side <;> simp

theorem Side.eq_opp_of_ne {side side' : Side} (h : side' ≠ side) : side' = side.opp := by
  cases side <;> cases side' <;> simp_all

variable {α : Type*}

/-- The node `a` with the subtree `near` on the given side and `far` on the other. -/
def branch (side : Side) (a : α) (near far : BinaryTree α) : BinaryTree α :=
  match side with
  | .left => .node a near far
  | .right => .node a far near

theorem branch_opp (side : Side) (a : α) (near far : BinaryTree α) :
    branch side.opp a near far = branch side a far near := by
  cases side <;> rfl

/-- Every tree but the empty one is a branch, on either side. -/
theorem eq_nil_or_branch (side : Side) (t : BinaryTree α) :
    t = .nil ∨ ∃ a near far, t = branch side a near far := by
  cases t with
  | nil => exact .inl rfl
  | node a l r =>
    cases side
    · exact .inr ⟨a, l, r, rfl⟩
    · exact .inr ⟨a, r, l, rfl⟩

/-- Induction along one side. -/
@[elab_as_elim]
theorem branch_induction (side : Side) {motive : BinaryTree α → Prop} (nil : motive .nil)
    (branch : ∀ a near far, motive near → motive far → motive (branch side a near far))
    (t : BinaryTree α) : motive t := by
  induction t with
  | nil => exact nil
  | node a l r ihl ihr =>
    cases side with
    | left => exact branch a l r ihl ihr
    | right => exact branch a r l ihr ihl

theorem height_branch (side : Side) (a : α) (near far : BinaryTree α) :
    (branch side a near far).height = max near.height far.height + 1 := by
  cases side with
  | left => rfl
  | right => exact congrArg (· + 1) (Nat.max_comm _ _)

/-- The labels from left to right. -/
def inorder : BinaryTree α → List α
  | .nil => []
  | .node a l r => inorder l ++ a :: inorder r

/-- The labels from the given side to the other. -/
def labelsFrom : Side → BinaryTree α → List α
  | .left, t => inorder t
  | .right, t => (inorder t).reverse

/-- A property of every node, given its label and its subtrees. -/
def ForallNodes (P : α → BinaryTree α → BinaryTree α → Prop) : BinaryTree α → Prop
  | .nil => True
  | .node a l r => P a l r ∧ ForallNodes P l ∧ ForallNodes P r

@[simp] theorem inorder_nil : inorder (.nil : BinaryTree α) = [] := rfl

@[simp] theorem labelsFrom_nil (side : Side) : labelsFrom side (.nil : BinaryTree α) = [] := by
  cases side <;> rfl

theorem labelsFrom_branch (side : Side) (a : α) (near far : BinaryTree α) :
    labelsFrom side (branch side a near far) =
      labelsFrom side near ++ a :: labelsFrom side far := by
  cases side <;> simp [branch, labelsFrom, inorder]

theorem inorder_map {β : Type*} (f : α → β) (t : BinaryTree α) :
    inorder (t.map f) = (inorder t).map f := by
  induction t with
  | nil => rfl
  | node a l r ihl ihr =>
    rw [BinaryTree.map, inorder, inorder, ihl, ihr, List.map_append, List.map_cons]

theorem length_inorder (t : BinaryTree α) : (inorder t).length = t.numNodes := by
  induction t with
  | nil => rfl
  | node a l r ihl ihr =>
    rw [inorder, List.length_append, List.length_cons, ihl, ihr, BinaryTree.numNodes]
    omega

/-- Fuel for every label is fuel for every path. -/
theorem height_lt {t : BinaryTree α} {fuel : ℕ} (hfuel : (inorder t).length < fuel) :
    t.height < fuel := by
  rw [length_inorder] at hfuel
  exact Nat.lt_of_le_of_lt t.height_le_numNodes hfuel

@[simp] theorem mem_inorder_branch {side : Side} {a b : α} {near far : BinaryTree α} :
    b ∈ inorder (branch side a near far) ↔ b = a ∨ b ∈ inorder near ∨ b ∈ inorder far := by
  cases side <;> simp only [branch, inorder, List.mem_append, List.mem_cons] <;> tauto

theorem nodup_middle_iff {a : α} {l₁ l₂ : List α} : (l₁ ++ a :: l₂).Nodup ↔
    a ∉ l₁ ∧ a ∉ l₂ ∧ l₁.Nodup ∧ l₂.Nodup ∧ ∀ b ∈ l₁, b ∉ l₂ := by
  rw [List.nodup_middle, List.nodup_cons, List.mem_append, List.nodup_append', List.disjoint_left]
  tauto

theorem nodup_branch_iff {side : Side} {a : α} {near far : BinaryTree α} :
    (inorder (branch side a near far)).Nodup ↔
      a ∉ inorder near ∧ a ∉ inorder far ∧ (inorder near).Nodup ∧ (inorder far).Nodup ∧
        ∀ b ∈ inorder near, b ∉ inorder far := by
  cases side with
  | left => exact nodup_middle_iff
  | right =>
    have hcomm : (∀ b ∈ inorder far, b ∉ inorder near) ↔ ∀ b ∈ inorder near, b ∉ inorder far :=
      ⟨fun hd b hb hb' => hd b hb' hb, fun hd b hb hb' => hd b hb' hb⟩
    rw [branch, inorder, nodup_middle_iff, hcomm]
    tauto

/-! ## Rotations -/

/-- A rotation keeps the order of the labels. -/
theorem inorder_rotate (side : Side) (x y : α) (a b d : BinaryTree α) :
    inorder (branch side y (branch side x a b) d) =
      inorder (branch side x a (branch side y b d)) := by
  cases side <;> simp [branch, inorder]

/-! ## Contexts -/

/-- One node on the path to a hole. -/
structure Frame (α : Type*) where
  /-- The side the hole is on. -/
  side : Side
  label : α
  sibling : BinaryTree α

/-- A tree with a hole, from the hole up to the root. -/
abbrev Context (α : Type*) := List (Frame α)

/-- Fill the hole. -/
def plug : Context α → BinaryTree α → BinaryTree α
  | [], t => t
  | f :: ctx, t => plug ctx (branch f.side f.label t f.sibling)

@[simp] theorem plug_nil (t : BinaryTree α) : plug [] t = t := rfl

@[simp] theorem plug_cons (f : Frame α) (ctx : Context α) (t : BinaryTree α) :
    plug (f :: ctx) t = plug ctx (branch f.side f.label t f.sibling) := rfl

theorem plug_append (ctx ctx' : Context α) (t : BinaryTree α) :
    plug (ctx ++ ctx') t = plug ctx' (plug ctx t) := by
  induction ctx generalizing t with
  | nil => rfl
  | cons f ctx ih => exact ih _

/-- The labels a frame contributes to the left of its hole. -/
def Frame.before (f : Frame α) : List α :=
  match f.side with
  | .left => []
  | .right => inorder f.sibling ++ [f.label]

/-- The labels a frame contributes to the right of its hole. -/
def Frame.after (f : Frame α) : List α :=
  match f.side with
  | .left => f.label :: inorder f.sibling
  | .right => []

/-- The labels to the left of the hole. -/
def before : Context α → List α
  | [] => []
  | f :: ctx => before ctx ++ f.before

/-- The labels to the right of the hole. -/
def after : Context α → List α
  | [] => []
  | f :: ctx => f.after ++ after ctx

@[simp] theorem before_nil : before ([] : Context α) = [] := rfl

@[simp] theorem after_nil : after ([] : Context α) = [] := rfl

@[simp] theorem before_cons (f : Frame α) (ctx : Context α) :
    before (f :: ctx) = before ctx ++ f.before := rfl

@[simp] theorem after_cons (f : Frame α) (ctx : Context α) :
    after (f :: ctx) = f.after ++ after ctx := rfl

theorem before_append (ctx ctx' : Context α) :
    before (ctx ++ ctx') = before ctx' ++ before ctx := by
  induction ctx with
  | nil => simp
  | cons f ctx ih => rw [List.cons_append, before_cons, ih, before_cons, List.append_assoc]

theorem inorder_branch (f : Frame α) (t : BinaryTree α) :
    inorder (branch f.side f.label t f.sibling) = f.before ++ inorder t ++ f.after := by
  rcases f with ⟨side, a, sib⟩
  cases side <;> simp [branch, inorder, Frame.before, Frame.after]

/-- **The labels of a filled tree.** -/
theorem inorder_plug (ctx : Context α) (t : BinaryTree α) :
    inorder (plug ctx t) = before ctx ++ inorder t ++ after ctx := by
  induction ctx generalizing t with
  | nil => simp
  | cons f ctx ih =>
    rw [plug_cons, ih, inorder_branch, before_cons, after_cons]
    simp only [List.append_assoc]

/-- Trees with the same labels in order can fill a hole alike. -/
theorem inorder_plug_congr {t t' : BinaryTree α} (ctx : Context α) (h : inorder t = inorder t') :
    inorder (plug ctx t) = inorder (plug ctx t') := by
  rw [inorder_plug, inorder_plug, h]

/-- The labels of a context. -/
def labels (ctx : Context α) : List α := before ctx ++ after ctx

@[simp] theorem labels_nil : labels ([] : Context α) = [] := rfl

@[simp] theorem mem_labels_cons {f : Frame α} {ctx : Context α} {b : α} :
    b ∈ labels (f :: ctx) ↔ b = f.label ∨ b ∈ inorder f.sibling ∨ b ∈ labels ctx := by
  rcases f with ⟨side, a, sib⟩
  cases side <;> simp only [labels, before_cons, after_cons, Frame.before, Frame.after,
    List.mem_append, List.mem_cons, List.append_nil, List.nil_append, List.not_mem_nil,
    or_false] <;>
    tauto

/-- A path is at most as long as its labels. -/
theorem length_le_labels (ctx : Context α) : ctx.length ≤ (labels ctx).length := by
  induction ctx with
  | nil => simp
  | cons f ctx ih =>
    rcases f with ⟨side, a, sib⟩
    cases side <;> simp [labels, Frame.before, Frame.after] at ih ⊢ <;> omega

theorem inorder_plug_nil (ctx : Context α) : inorder (plug ctx .nil) = labels ctx := by
  rw [inorder_plug, inorder_nil, List.append_nil, labels]

theorem mem_labels_append {ctx ctx' : Context α} {b : α} :
    b ∈ labels (ctx ++ ctx') ↔ b ∈ labels ctx ∨ b ∈ labels ctx' := by
  induction ctx with
  | nil => simp
  | cons f ctx ih =>
    rw [List.cons_append, mem_labels_cons, mem_labels_cons, ih]
    tauto

theorem nodup_plug_iff {ctx : Context α} {t : BinaryTree α} :
    (inorder (plug ctx t)).Nodup ↔
      (inorder t).Nodup ∧ (labels ctx).Nodup ∧ ∀ b ∈ inorder t, b ∉ labels ctx := by
  have hperm : (inorder (plug ctx t)).Perm (inorder t ++ labels ctx) := by
    rw [inorder_plug, labels, ← List.append_assoc]
    exact List.perm_append_comm.append_right _
  rw [hperm.nodup_iff, List.nodup_append', List.disjoint_left]

theorem mem_inorder_plug {ctx : Context α} {t : BinaryTree α} {b : α} :
    b ∈ inorder (plug ctx t) ↔ b ∈ inorder t ∨ b ∈ labels ctx := by
  simp only [inorder_plug, labels, List.mem_append]
  tauto

end Foundation
