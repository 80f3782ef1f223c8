import OvaLib.Lifetime
import OvaLib.Tree.AvlRefinement
import OvaLib.Tree.RedBlackMethods

/-!
# Where a deletion frees its node

Both deletions free a node in the middle of their work. `rb_tree_delete` unlinks the node, frees it,
and only then runs the fixup over the tree that is left. `avl_delete_node` frees at the bottom of
its recursion, and every call on the way back reads and rotates what it gets from below. The models
of the two files do without `free`, so they do not say that the rest of the work keeps away from
the node. Here it is freed in its place.

## What a freed node holds

A red-black tree is a memory whose fields are functions of the address, and there the meaning of
`free` is that the fields of the node may become anything: `RbTree.overwrite` writes arbitrary
fields over them. The deletion that does so before its fixup, `rbDeleteReleasing`, ends in the same
finite map whatever is written. A fixup that read the colour or a child of the freed node would
not: some fields would lead it astray. This needs no list of the reads, which could forget one.

The overwritten node may well be pointed to. The sentinel's parent field keeps the address of the
last node it was hung under, and after that node is freed it dangles; what matters is that no call
follows it.

## A tree that is a value

An AVL tree is modelled as the value of its root pointer, which has no dangling pointers to follow.
There the blocks that are held are carried along, and each step checks that all nodes of the
subtree at hand are held, on the way down and again on the way back. The source reads fewer nodes
than that, so a run with an outcome reads no node that it has freed.

## Main results

* `UnlinkSpec.overwrite` — an unlinked node may hold anything
* `rbDeleteReleasing_found` — the deletion from a red-black tree, for arbitrary fields
* `deleteNode_freed` — the node that a deletion from an AVL tree frees
* `avlDeleteReleasing_eq` — the deletion from an AVL tree passes its checks
-/

namespace OvaLib

namespace Tree

open Foundation

variable {κ υ : Type*} {cmp : κ → κ → ℤ}

/-! ## Red-black trees -/

/-- The fields of a node that `free` has been given. -/
structure FreedNode (κ υ : Type*) where
  child : Side → Addr
  parent : Addr
  color : Color
  key : κ
  value : Option υ

/-- The links once `free(z)` has left something else in the node. -/
def Links.overwrite (m : Links) (z : Addr) (junk : FreedNode κ υ) : Links :=
  { m with
    child := fun side => Function.update (m.child side) z (junk.child side)
    parent := Function.update m.parent z junk.parent
    color := Function.update m.color z junk.color }

/-- The tree once `free(z)` has left something else in the node. -/
def RbTree.overwrite (t : RbTree κ υ) (z : Addr) (junk : FreedNode κ υ) : RbTree κ υ :=
  { t with
    toLinks := t.toLinks.overwrite z junk
    key := Function.update t.key z junk.key
    value := Function.update t.value z junk.value }

/-- `rb_tree_delete`, with the node freed before the fixup; `junk` is what `free` leaves behind. -/
def rbDeleteReleasing (cmp : κ → κ → ℤ) (fuel : ℕ) (junk : Addr → FreedNode κ υ) (t : RbTree κ υ)
    (held : Finset Allocation) (key : κ) : Option (RbTree κ υ × Finset Allocation) :=
  (rbSearchNode cmp t key fuel t.root).bind fun z =>
    if z = nil then some (t, held)
    else
      (unlinkNode fuel t.toLinks z).bind fun (m, x, yOriginalColor) =>
        (release (.node z) held).bind fun held =>
          let t := RbTree.overwrite { t with toLinks := m } z (junk z)
          let t := { t with size := if t.size > 0 then t.size - 1 else t.size }
          (if yOriginalColor = .black then t.rbDeleteFixup fuel x else some t.toLinks).map
            fun m => ({ t with toLinks := m }, held)

section

variable {m m' : Links} {junk : FreedNode κ υ} {z : Addr}

theorem Links.agree_overwrite {l : List Addr} (hz : z ∉ l) :
    Agree m.child (m.overwrite z junk).child m.parent (m.overwrite z junk).parent l := by
  intro a ha
  have hne : a ≠ z := ne_of_mem_of_not_mem ha hz
  exact ⟨Function.update_of_ne hne _ _, fun side => Function.update_of_ne hne _ _⟩

/-- **An unlinked node may hold anything**: no link and no colour of the tree is in it. -/
theorem UnlinkSpec.overwrite {x : Addr} {c : Color} {l : List Addr} {ctx : Context Addr}
    {s : BinaryTree Addr} (h : UnlinkSpec m m' x c l ctx s) (hz : z ∉ l) (hne : z ≠ nil) :
    UnlinkSpec m (m'.overwrite z junk) x c l ctx s := by
  have hplug : z ∉ inorder (plug ctx s) := by
    rw [h.inorder_eq]
    exact hz
  have hs : z ∉ inorder s := fun hmem => hplug (mem_inorder_plug.mpr (.inl hmem))
  have hctx : z ∉ labels ctx := fun hmem => hplug (mem_inorder_plug.mpr (.inr hmem))
  have hx : x ≠ z := by
    rintro rfl
    exact hs (h.focus.tree.mem_of_ne_nil hne)
  constructor
  · exact ⟨h.focus.context.congr (Links.agree_overwrite hctx),
      h.focus.tree.congr (Links.agree_overwrite hs), h.focus.nodup⟩
  · exact (Function.update_of_ne hx _ _).trans h.parent_eq
  · exact h.inorder_eq
  · exact (Function.update_of_ne hne.symm _ _).trans h.nil_black
  · intro hred
    obtain ⟨n, hn⟩ := h.red hred
    exact ⟨n, (balanced_update hplug _).mpr hn⟩
  · intro hblack
    obtain ⟨cs, n, hn, hfits⟩ := h.black hblack
    exact ⟨cs, n, (balanced_update hs _).mpr hn, (fits_update hctx _).mpr hfits⟩

end

section

variable {h : IsComparator cmp} {t : RbTree κ υ} {l : List Addr} {M : KeyMap h υ}

/-- The keys and the values that matter are those of the nodes. -/
theorem Represents.overwrite (ht : Represents h t l M) {z : Addr} (hz : z ∉ l) (k : κ)
    (v : Option υ) :
    Represents h { t with key := Function.update t.key z k, value := Function.update t.value z v } l
      M := by
  have hkey : ∀ a ∈ l, Function.update t.key z k a = t.key a := fun a ha =>
    Function.update_of_ne (ne_of_mem_of_not_mem ha hz) _ _
  have hval : ∀ a ∈ l, Function.update t.value z v a = t.value a := fun a ha =>
    Function.update_of_ne (ne_of_mem_of_not_mem ha hz) _ _
  exact ⟨ht.redBlack, ht.ascending.congr hkey,
    ht.lists.congr (fun a ha => congrArg h.keyClass (hkey a ha)) hval, ht.size, ht.fresh,
    ht.fresh_pos⟩

open Classical in
/-- **A deletion that finds its key** frees the node with it, and the tree that is left binds what
it should, whatever the freed node holds from then on. -/
theorem rbDeleteReleasing_found (ht : Represents h t l M) {key : κ} {T l₁ r₁ : BinaryTree Addr}
    {n : ℕ} {ctx : Context Addr} {a : Addr} (hT : inorder T = l)
    (hbal : Balanced t.color .black n T) (hfoc : Focus t.toLinks ctx (.node a l₁ r₁) a)
    (hplug : plug ctx (.node a l₁ r₁) = T) (hequiv : cmp key (t.key a) = 0) {fuel : ℕ}
    (hsearch : rbSearchNode cmp t key fuel t.root = some a) (hfuel : l.length < fuel)
    (junk : Addr → FreedNode κ υ) {held : Finset Allocation} (ha : .node a ∈ held) :
    ∃ t' l', rbDeleteReleasing cmp fuel junk t held key = some (t', held.erase (.node a)) ∧
      Represents h t' l' (Function.update M (h.keyClass key) none) ∧ t'.fresh = t.fresh ∧
      l.Perm (a :: l') := by
  have hne : a ≠ nil := hfoc.tree.2.1
  obtain ⟨m, x, c, ctx', s, l', hunlink, hspec, hperm, hsub⟩ := ht.unlink hT hbal hfoc hplug hfuel
  have hnodup : l.Nodup := by
    rw [← hT, ← hplug]
    exact hfoc.nodup
  have hgone : a ∉ l' := (List.nodup_cons.mp (hperm.nodup_iff.mp hnodup)).1
  have hspec' : UnlinkSpec t.toLinks (m.overwrite a (junk a)) x c l' ctx' s :=
    hspec.overwrite hgone hne
  obtain ⟨m', hrun, hrb⟩ := hspec'.fixup (show l'.length + 1 < fuel by
    rw [← List.length_cons, ← hperm.length_eq]
    exact hfuel)
  have hwithout := (ht.without hequiv hrb hperm hsub).overwrite hgone (junk a).key (junk a).value
  refine ⟨_, l', ?_, hwithout, rfl, hperm⟩
  rw [rbDeleteReleasing, hsearch, Option.bind_some, if_neg hne, hunlink, Option.bind_some,
    release_of_mem ha]
  exact congrArg (Option.map _) hrun

end

/-! ## AVL trees -/

/-- The node that `avl_delete_node` frees. -/
def avlFreed (cmp : κ → κ → ℤ) : AvlNode κ υ → κ → Option Addr
  | .nil, _ => none
  | .node d l r, key =>
    if cmp key d.key < 0 then avlFreed cmp l key
    else if 0 < cmp key d.key then avlFreed cmp r key
    else if isNull l ∨ isNull r then some d.addr
    else (avlMinNode r).bind fun succ => avlFreed cmp r succ.key

/-- **A deletion frees the node that leaves the tree.** -/
theorem deleteNode_freed (cmp : κ → κ → ℤ) (n : AvlNode κ υ) (key : κ) (size : ℕ) :
    (addrs n).Perm ((avlFreed cmp n key).toList ++ addrs (avlDeleteNode cmp n key size).1) := by
  induction n generalizing key size with
  | nil => exact .refl _
  | node d l r ihl ihr =>
    rw [avlFreed]
    rcases lt_trichotomy (cmp key d.key) 0 with hlt | heq | hgt
    · rw [if_pos hlt, deleteNode_of_lt hlt, addrs_deleteRebalance, addrs_setParent, addrs_node,
        ← List.append_assoc]
      exact (ihl key size).append_right _
    · rw [if_neg heq.not_lt, if_neg heq.not_gt]
      by_cases hnil : l = .nil ∨ r = .nil
      · obtain ⟨child, hchild, hdel⟩ := deleteNode_of_child heq hnil size
        have hnull : isNull l = true ∨ isNull r = true := by
          rw [isNull_iff, isNull_iff]
          exact hnil
        have hone : addrs child = addrs l ++ addrs r := by
          rcases hchild with ⟨rfl, rfl⟩ | ⟨rfl, rfl⟩ <;> simp
        rw [if_pos hnull, hdel, addrs_setParent, hone, addrs_node]
        exact List.perm_middle
      · obtain ⟨hlne, hrne⟩ := not_or.mp hnil
        obtain ⟨succ, rest, hmin, -⟩ := exists_minNode hrne
        have hnull : ¬(isNull l = true ∨ isNull r = true) := by
          rw [isNull_iff, isNull_iff]
          exact hnil
        rw [if_neg hnull, hmin, Option.bind_some, deleteNode_of_two heq hlne hrne hmin,
          addrs_deleteRebalance, addrs_setParent, addrs_node]
        have hright := ((ihr succ.key size).append_left (addrs l ++ [d.addr])).trans
          (List.perm_append_comm_assoc _ _ _)
        simpa using hright
    · rw [if_neg (not_lt.mpr hgt.le), if_pos hgt, deleteNode_of_gt hgt, addrs_deleteRebalance,
        addrs_setParent, addrs_node]
      have hright := ((ihr key size).append_left (addrs l ++ [d.addr])).trans
        (List.perm_append_comm_assoc _ _ _)
      simpa using hright

/-- What is held once the node, if there is one, has been freed. -/
def heldWithout (freed : Option Addr) (held : Finset Allocation) : Finset Allocation :=
  freed.elim held fun z => held.erase (.node z)

theorem node_mem_heldWithout {freed : Option Addr} {held : Finset Allocation} {a : Addr} :
    .node a ∈ heldWithout freed held ↔ .node a ∈ held ∧ freed ≠ some a := by
  cases freed with
  | none => simp [heldWithout]
  | some z => simp [heldWithout, and_comm, eq_comm]

/-- All nodes of the subtree are held. -/
def AllHeld (n : AvlNode κ υ) (held : Finset Allocation) : Prop :=
  ∀ a ∈ addrs n, Allocation.node a ∈ held

instance (n : AvlNode κ υ) (held : Finset Allocation) : Decidable (AllHeld n held) :=
  inferInstanceAs (Decidable (∀ a ∈ addrs n, Allocation.node a ∈ held))

/-- The source goes on to read the subtree, and has no outcome where a node of it is gone. -/
def ifHeld {α : Type*} (n : AvlNode κ υ) (held : Finset Allocation) (rest : Option α) : Option α :=
  if AllHeld n held then rest else none

/-- `avl_delete_node`, with the node freed where the source frees it. -/
def avlDeleteReleasing (cmp : κ → κ → ℤ) : AvlNode κ υ → κ → ℕ → Finset Allocation →
    Option (AvlNode κ υ × ℕ × Finset Allocation)
  | .nil, _, size, held => some (.nil, size, held)
  | .node d l r, key, size, held =>
    ifHeld (.node d l r) held <|
      if cmp key d.key < 0 then
        (avlDeleteReleasing cmp l key size held).bind fun (l, size, held) =>
          ifHeld (.node d l r) held <|
            some (avlDeleteRebalance d (avlSetParent (some d.addr) l) r, size, held)
      else if 0 < cmp key d.key then
        (avlDeleteReleasing cmp r key size held).bind fun (r, size, held) =>
          ifHeld (.node d l r) held <|
            some (avlDeleteRebalance d l (avlSetParent (some d.addr) r), size, held)
      else if isNull l ∨ isNull r then
        -- `child->parent = root->parent` comes before `free(root)`
        (release (.node d.addr) held).map fun held =>
          (avlSetParent d.parent (if isNull l then r else l), size - 1, held)
      else
        match avlMinNode r with
        | none => some (avlDeleteRebalance d l r, size, held)
        | some succ =>
          let d := { d with key := succ.key, value := succ.value }
          (avlDeleteReleasing cmp r succ.key size held).bind fun (r, size, held) =>
            ifHeld (.node d l r) held <|
              some (avlDeleteRebalance d l (avlSetParent (some d.addr) r), size, held)

/-- The freed node is one of the subtree, and the nodes that are left are others of it. -/
theorem deleteNode_left {cmp : κ → κ → ℤ} {n : AvlNode κ υ} (hnodup : (addrs n).Nodup) (key : κ)
    (size : ℕ) :
    (∀ a, avlFreed cmp n key = some a → a ∈ addrs n) ∧
      ∀ a ∈ addrs (avlDeleteNode cmp n key size).1,
        a ∈ addrs n ∧ avlFreed cmp n key ≠ some a := by
  have hperm := deleteNode_freed cmp n key size
  have hleft := (List.nodup_append'.mp (hperm.nodup_iff.mp hnodup)).2.2
  constructor
  · intro a ha
    refine hperm.mem_iff.mpr (List.mem_append_left _ ?_)
    rw [ha, Option.toList_some]
    exact List.mem_singleton_self a
  · intro a ha
    refine ⟨hperm.mem_iff.mpr (List.mem_append_right _ ha), fun hfreed => ?_⟩
    rw [hfreed, Option.toList_some] at hleft
    exact hleft (List.mem_singleton_self a) ha

/-- **The deletion passes its checks**: it ends as the one without `free` does, and what is freed is
the node that leaves the tree. -/
theorem avlDeleteReleasing_eq (cmp : κ → κ → ℤ) {n : AvlNode κ υ} {held : Finset Allocation}
    (hnodup : (addrs n).Nodup) (hheld : AllHeld n held) (key : κ) (size : ℕ) :
    avlDeleteReleasing cmp n key size held =
      some ((avlDeleteNode cmp n key size).1, (avlDeleteNode cmp n key size).2,
        heldWithout (avlFreed cmp n key) held) := by
  induction n generalizing key size with
  | nil => rfl
  | node d l r ihl ihr =>
    rw [avlDeleteReleasing, ifHeld, if_pos hheld, avlFreed]
    rw [addrs_node] at hnodup
    have hmem : ∀ a, a ∈ addrs l ∨ a = d.addr ∨ a ∈ addrs r → Allocation.node a ∈ held := by
      intro a ha
      refine hheld a ?_
      rw [addrs_node, List.mem_append, List.mem_cons]
      exact ha
    obtain ⟨hl, hdr, hdisjoint⟩ := List.nodup_append'.mp hnodup
    obtain ⟨hd, hr⟩ := List.nodup_cons.mp hdr
    have hinl := ihl hl fun a ha => hmem a (.inl ha)
    have hinr := ihr hr fun a ha => hmem a (.inr (.inr ha))
    -- on the way back, the nodes at hand are held still
    have hleft : ∀ key size, AllHeld (.node d (avlDeleteNode cmp l key size).1 r)
        (heldWithout (avlFreed cmp l key) held) := by
      intro key size a ha
      obtain ⟨hfreed, hkept⟩ := deleteNode_left hl key size
      rw [addrs_node, List.mem_append] at ha
      refine node_mem_heldWithout.mpr ?_
      rcases ha with ha | ha
      · exact ⟨hmem a (.inl (hkept a ha).1), (hkept a ha).2⟩
      · exact ⟨hmem a (.inr (List.mem_cons.mp ha)), fun heq => hdisjoint (hfreed a heq) ha⟩
    have hright : ∀ (d' : NodeData κ υ) key size, d'.addr = d.addr →
        AllHeld (.node d' l (avlDeleteNode cmp r key size).1)
          (heldWithout (avlFreed cmp r key) held) := by
      intro d' key size hd' a ha
      obtain ⟨hfreed, hkept⟩ := deleteNode_left hr key size
      rw [addrs_node, List.mem_append, List.mem_cons, hd'] at ha
      refine node_mem_heldWithout.mpr ?_
      rcases ha with ha | rfl | ha
      · refine ⟨hmem a (.inl ha), fun heq => hdisjoint ha ?_⟩
        exact List.mem_cons_of_mem _ (hfreed a heq)
      · exact ⟨hmem _ (.inr (.inl rfl)), fun heq => hd (hfreed _ heq)⟩
      · exact ⟨hmem a (.inr (.inr (hkept a ha).1)), (hkept a ha).2⟩
    rcases lt_trichotomy (cmp key d.key) 0 with hlt | heq | hgt
    · rw [if_pos hlt, if_pos hlt, hinl, Option.bind_some, deleteNode_of_lt hlt]
      exact if_pos (hleft key size)
    · rw [if_neg heq.not_lt, if_neg heq.not_gt, if_neg heq.not_lt, if_neg heq.not_gt]
      by_cases hnull : isNull l = true ∨ isNull r = true
      · rw [if_pos hnull, if_pos hnull, release_of_mem (hmem _ (.inr (.inl rfl))), Option.map_some,
          avlDeleteNode, if_neg heq.not_lt, if_neg heq.not_gt, if_pos hnull]
        rfl
      · rw [if_neg hnull, if_neg hnull]
        rw [isNull_iff, isNull_iff] at hnull
        obtain ⟨hlne, hrne⟩ := not_or.mp hnull
        obtain ⟨succ, rest, hmin, -⟩ := exists_minNode hrne
        rw [hmin, Option.bind_some, deleteNode_of_two heq hlne hrne hmin]
        dsimp only
        rw [hinr, Option.bind_some]
        exact if_pos (hright { d with key := succ.key, value := succ.value } succ.key size rfl)
    · rw [if_neg (not_lt.mpr hgt.le), if_pos hgt, if_neg (not_lt.mpr hgt.le), if_pos hgt, hinr,
        Option.bind_some, deleteNode_of_gt hgt]
      exact if_pos (hright d key size rfl)

end Tree

end OvaLib
