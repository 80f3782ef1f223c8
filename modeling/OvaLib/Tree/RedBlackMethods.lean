import OvaLib.Tree.RedBlackRefinement

/-!
# Search and traversal of a red-black tree

The methods of `tree.c` that read a red-black tree. The callback of a traversal may change a state
of its own, which is passed along.

A search follows the child pointers by comparisons until it is at the key or at the sentinel, and
takes fuel, as the memory alone does not say that there is an end. Its result is read off from the
refinement: a tree that represents a finite map has the key on the path that the comparisons take,
or not at all. The traversal is a recursion in the source and is one here, over a tree in memory, so
it takes fuel as well. The other queries, which serve both kinds of tree, are in `Queries`.

## Main results

* `treeSearchMethod_eq` — a search finds the value bound to the key
* `treeInOrderTraverseMethod_eq` — a traversal calls back for each node in order
-/

namespace OvaLib

namespace Tree

open Foundation

variable {κ υ σ : Type*}

/-! ## The methods -/

/-- `create_tree` for `TREE_RED_BLACK`: the `tree`, its `tree_impl` and the sentinel are allocated
in turn. -/
def createTree [Inhabited κ] (a : Allocator) : Option (RbTree κ υ) × Allocator :=
  let (out, a) := a.alloc
  if out then
    let (impl, a) := a.alloc
    if impl then
      let (sentinel, a) := a.alloc
      (if sentinel then some createRbTree else none, a)
    else (none, a)
  else (none, a)

/-- `tree_search_node`. -/
def treeSearchNode (cmp : κ → κ → ℤ) (fuel : ℕ) (t : RbTree κ υ) (key : κ) : Option Addr :=
  rbSearchNode cmp t key fuel t.root

/-- `tree_search_method`. -/
def treeSearchMethod (cmp : κ → κ → ℤ) (fuel : ℕ) (t : RbTree κ υ) (key : Option κ) :
    Option (Option υ) :=
  match key with
  | none => some none
  | some key =>
    (treeSearchNode cmp fuel t key).map fun node => if node = nil then none else t.value node

/-- `tree_in_order_node`. -/
def treeInOrderNode (t : RbTree κ υ) (callback : σ → κ → Option υ → σ) :
    ℕ → Addr → σ → Option σ
  | 0, _, _ => none
  | fuel + 1, node, s =>
    if node = nil then some s
    else do
      let s ← treeInOrderNode t callback fuel (t.child .left node) s
      let s := callback s (t.key node) (t.value node)
      treeInOrderNode t callback fuel (t.child .right node) s

/-- `tree_in_order_traverse_method`. -/
def treeInOrderTraverseMethod (fuel : ℕ) (t : RbTree κ υ) (callback : σ → κ → Option υ → σ)
    (s : σ) : Option σ :=
  treeInOrderNode t callback fuel t.root s

/-- `tree_size_method`. -/
def treeSizeMethod (t : RbTree κ υ) : ℤ := int32 t.size

/-! ## What they return -/

/-- **A traversal of a subtree** calls back for each of its nodes in order. -/
theorem treeInOrderNode_eq {t : RbTree κ υ} (callback : σ → κ → Option υ → σ)
    {T : BinaryTree Addr} {p par : Addr} (h : Linked t.child t.parent T p par) {fuel : ℕ}
    (hfuel : T.height < fuel) (s : σ) :
    treeInOrderNode t callback fuel p s =
      some ((inorder T).foldl (fun s a => callback s (t.key a) (t.value a)) s) := by
  induction T generalizing p par fuel s with
  | nil =>
    obtain ⟨fuel, rfl⟩ : ∃ k, fuel = k + 1 := ⟨fuel - 1, by omega⟩
    have hp : p = nil := h
    rw [treeInOrderNode, if_pos hp]
    rfl
  | node a l r ihl ihr =>
    obtain ⟨fuel, rfl⟩ : ∃ k, fuel = k + 1 := ⟨fuel - 1, by omega⟩
    rw [BinaryTree.height] at hfuel
    obtain ⟨rfl, hne, -, hl, hr⟩ := h
    rw [treeInOrderNode, if_neg hne, ihl hl (show l.height < fuel by omega), Option.bind_eq_bind,
      Option.bind_some, ihr hr (show r.height < fuel by omega)]
    simp [inorder]

variable {cmp : κ → κ → ℤ} {h : IsComparator cmp} {t : RbTree κ υ} {l : List Addr} {M : KeyMap h υ}

/-- **A traversal** calls back for each node in order. -/
theorem treeInOrderTraverseMethod_eq (ht : Represents h t l M) (callback : σ → κ → Option υ → σ)
    {fuel : ℕ} (hfuel : l.length < fuel) (s : σ) :
    treeInOrderTraverseMethod fuel t callback s =
      some (l.foldl (fun s a => callback s (t.key a) (t.value a)) s) := by
  obtain ⟨T, hfoc, rfl, -, -⟩ := ht.redBlack
  exact treeInOrderNode_eq callback hfoc.tree (height_lt hfuel) s

/-- **A search** finds the value bound to the key. -/
theorem treeSearchMethod_eq (ht : Represents h t l M) (key : κ) {fuel : ℕ}
    (hfuel : l.length < fuel) :
    treeSearchMethod cmp fuel t (some key) = some (M (h.keyClass key)).join := by
  obtain ⟨T, n, hT, -, hend⟩ := ht.searchEnd key hfuel
  cases hend with
  | found ctx a left right hfoc hplug hequiv hinsert hsearch =>
    have ha : a ∈ l := by
      rw [← hT, ← hplug, mem_inorder_plug]
      simp [inorder]
    have hbound : M (h.keyClass key) = some (t.value a) := by
      rw [h.keyClass_eq_iff.mpr hequiv]
      exact ht.lists.of_mem ha
    have hleft : Focus t.toLinks ctx (branch .left a left right) a := hfoc
    have hne : a ≠ nil := hleft.ne_nil
    simp only [treeSearchMethod, treeSearchNode, hsearch, Option.map_some, if_neg hne, hbound,
      Option.join_some]
  | absent ctx hfoc hplug hpath hinsert hsearch =>
    have hl : l = labels ctx := by
      rw [← hT, ← hplug, inorder_plug_nil]
    simp only [treeSearchMethod, treeSearchNode, hsearch, Option.map_some, if_true,
      ht.eq_none hl hpath, Option.join_none]

end Tree

end OvaLib
