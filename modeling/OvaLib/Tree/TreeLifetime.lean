import OvaLib.Tree.FreedNodes
import OvaLib.Tree.InsertFailure
import OvaLib.Tree.Queries

/-!
# What a tree has allocated

The calls of both kinds of tree with the blocks they allocate and free. An insertion takes an
address from `malloc` or none; a deletion frees one node, in the middle of its work, which in an AVL
tree need not be the one with the key. The sentinel of a red-black tree is a block like any other,
at the address 0. `tree_free_node` serves both kinds and frees a node after the two subtrees.

Four things can go wrong with a node that is freed. It may never be: then it is held at the end,
and the set of blocks held is not the set of the nodes. It may be freed again: `release` has no
outcome for a block that is not held. It may be read afterwards: in a red-black tree it then holds
whatever it likes (the argument `junk` of the run), and in an AVL tree the nodes are checked to be
held whenever the source goes on to read them. Or the tree may come to depend on it, and answer
otherwise than it should. So the theorem about the runs says four things at once: they have an
outcome, whatever the freed nodes hold and whatever allocations fail; the tree they end with is
balanced and binds what the calls bind on paper; it holds its nodes and nothing else; and
`tree_free_method` ends with nothing held.

On paper a call changes a finite map, `allocStep`. The allocator appears there too, since an
insertion of a new key is lost when its node is not to be had.

## Main results

* `Plants.consumes` — `tree_free_node` frees a tree
* `avlOwnedCall_spec`, `rbOwnedCall_spec` — one call
* `avlOwnedRun_spec`, `rbOwnedRun_spec` — every run
* `tree_frees` — nothing is leaked, freed twice or relied on once freed

## Scope

The keys and values belong to the caller, and no call frees them. The allocation attempts are those
of the nodes and of `create_tree`.
-/

namespace OvaLib

namespace Tree

open Foundation

variable {κ υ ν : Type*} {cmp : κ → κ → ℤ}

/-! ## Freeing -/

namespace TreeImpl

/-- `tree_free_node`; `addr` is the address behind a pointer. -/
def treeFreeNode (t : TreeImpl κ υ ν) (addr : ν → Addr) : ℕ → ν → Freeing Allocation
  | 0, _ => fun _ => none
  | fuel + 1, node =>
    match t.node node with
    | none => some
    | some fields =>
      reading (.node (addr node)) (andThen (t.treeFreeNode addr fuel (fields.child .left))
        (reading (.node (addr node)) (andThen (t.treeFreeNode addr fuel (fields.child .right))
          (release (.node (addr node))))))

/-- The nodes from a pointer on are at the addresses of a tree. It is said of the method table that
both kinds of tree have, so that freeing is proved once. -/
def Plants (t : TreeImpl κ υ ν) (addr : ν → Addr) : BinaryTree Addr → ν → Prop
  | .nil, n => t.node n = none
  | .node a l r, n => ∃ fields, t.node n = some fields ∧ addr n = a ∧
      Plants t addr l (fields.child .left) ∧ Plants t addr r (fields.child .right)

/-- **`tree_free_node` frees the tree**: every address of it once, and nothing else. The fields of a
node are read before it is freed, and not afterwards. -/
theorem Plants.consumes {t : TreeImpl κ υ ν} {addr : ν → Addr} {T : BinaryTree Addr} {n : ν}
    (hT : t.Plants addr T n) {fuel : ℕ} (hfuel : T.height < fuel) :
    Consumes (t.treeFreeNode addr fuel n) ((inorder T).map .node) := by
  induction T generalizing n fuel with
  | nil =>
    obtain ⟨fuel, rfl⟩ : ∃ k, fuel = k + 1 := ⟨fuel - 1, by omega⟩
    have hnode : t.node n = none := hT
    rw [treeFreeNode, hnode]
    exact consumes_skip
  | node a l r ihl ihr =>
    obtain ⟨fuel, rfl⟩ : ∃ k, fuel = k + 1 := ⟨fuel - 1, by omega⟩
    rw [BinaryTree.height] at hfuel
    obtain ⟨fields, hnode, rfl, hl, hr⟩ := hT
    have hright := ((ihr hr (show r.height < fuel by omega)).andThen
      (consumes_release (.node (addr n)))).reading (b := .node (addr n)) (by simp)
    have hboth := ((ihl hl (show l.height < fuel by omega)).andThen hright).reading
      (b := .node (addr n)) (by simp)
    rw [treeFreeNode, hnode]
    refine hboth.perm ?_
    rw [inorder, List.map_append, List.map_cons]
    exact (List.perm_append_singleton _ _).append_left _

end TreeImpl

/-! ## AVL trees -/

/-- The address behind a pointer of an AVL tree. -/
def avlAddr : AvlNode κ υ → Addr
  | .nil => 0
  | .node d _ _ => d.addr

theorem inorder_map_addr (n : AvlNode κ υ) : inorder (n.map NodeData.addr) = addrs n := by
  induction n with
  | nil => rfl
  | node d l r ihl ihr => rw [BinaryTree.map, inorder, ihl, ihr, addrs_node]

theorem plants_avl (t : AvlTree κ υ) (n : AvlNode κ υ) :
    t.impl.Plants avlAddr (n.map NodeData.addr) n := by
  induction n with
  | nil => rfl
  | node d l r ihl ihr => exact ⟨_, rfl, rfl, ihl, ihr⟩

variable {h : IsComparator cmp}

/-! ## The calls on paper -/

open Classical in
/-- What a call does to the finite map and to the allocation attempts to come: a key without a node
needs one. -/
noncomputable def allocStep (h : IsComparator cmp) (s : KeyMap h υ × Allocator) :
    Call κ υ → KeyMap h υ × Allocator
  | .insert key value =>
    if s.1 (h.keyClass key) ≠ none then
      (Function.update s.1 (h.keyClass key) (some value), s.2)
    else if s.2.alloc.1 then
      (Function.update s.1 (h.keyClass key) (some value), s.2.alloc.2)
    else (s.1, s.2.alloc.2)
  | .delete key => (Function.update s.1 (h.keyClass key) none, s.2)

section

variable {M : KeyMap h υ} {a : Allocator} {key : κ} {value : Option υ}

open Classical in
theorem allocStep_of_bound {v : Option υ} (hM : M (h.keyClass key) = some v) :
    allocStep h (M, a) (.insert key value) =
      (Function.update M (h.keyClass key) (some value), a) := by
  have hbound : M (h.keyClass key) ≠ none := by
    rw [hM]
    exact Option.some_ne_none v
  exact if_pos hbound

open Classical in
theorem allocStep_of_granted (hM : M (h.keyClass key) = none) (ha : a.alloc.1 = true) :
    allocStep h (M, a) (.insert key value) =
      (Function.update M (h.keyClass key) (some value), a.alloc.2) :=
  (if_neg (not_not.mpr hM)).trans (if_pos ha)

theorem allocStep_of_refused (hM : M (h.keyClass key) = none) (ha : a.alloc.1 = false) :
    allocStep h (M, a) (.insert key value) = (M, a.alloc.2) :=
  (if_neg (not_not.mpr hM)).trans (if_neg (Bool.eq_false_iff.mp ha))

end

/-! ## Red-black trees -/

theorem plants_rb {t : RbTree κ υ} {T : BinaryTree Addr} {p par : Addr}
    (hT : Linked t.child t.parent T p par) : t.impl.Plants id T p := by
  induction T generalizing p par with
  | nil =>
    have hp : p = nil := hT
    exact if_pos hp
  | node a l r ihl ihr =>
    obtain ⟨rfl, hne, -, hl, hr⟩ := hT
    exact ⟨_, if_neg hne, rfl, ihl hl, ihr hr⟩

section

variable {t : RbTree κ υ} {l : List Addr} {M : KeyMap h υ}

/-- **An insertion** adds the node at the next address, if it allocates one. -/
theorem rbTreeInsert_nodes (ht : Represents h t l M) (key : κ) (value : Option υ) (a : Allocator)
    {fuel : ℕ} (hfuel : l.length < fuel) :
    ∃ t' l', rbTreeInsert cmp fuel a t key value =
        some (t', (allocStep h (M, a) (.insert key value)).2) ∧
      Represents h t' l' (allocStep h (M, a) (.insert key value)).1 ∧
      (t'.fresh = t.fresh ∧ l' = l ∨ t'.fresh = t.fresh + 1 ∧ l'.Perm (t.fresh :: l)) := by
  classical
  obtain ⟨T, n, hT, hbal, hend⟩ := ht.searchEnd key hfuel
  cases hend with
  | found ctx b l₁ r₁ hfoc hplug hequiv hinsert hsearch =>
    have hb : b ∈ l := by
      rw [← hT, ← hplug, mem_inorder_plug]
      simp [inorder]
    have hclass : h.keyClass key = h.keyClass (t.key b) := h.keyClass_eq_iff.mpr hequiv
    have hbound : M (h.keyClass key) = some (t.value b) := by
      rw [hclass]
      exact ht.lists.of_mem hb
    have hdescent : insertDescent cmp t key fuel t.root nil = some (.inl b) := hinsert
    rw [allocStep_of_bound hbound]
    refine ⟨{ t with value := Function.update t.value b value }, l, ?_,
      ⟨ht.redBlack, ht.ascending, ?_, ht.size, ht.fresh, ht.fresh_pos⟩, .inl ⟨rfl, rfl⟩⟩
    · rw [rbTreeInsert, hdescent]
    · rw [hclass]
      exact ht.lists.assign hb value
  | absent ctx hfoc hplug hpath hinsert hsearch =>
    have hdescent : insertDescent cmp t key fuel t.root nil = some (.inr (ctxParent ctx)) := hinsert
    have hl : l = labels ctx := by
      rw [← hT, ← hplug, inorder_plug_nil]
    have hunbound := ht.eq_none hl hpath
    cases halloc : a.alloc.1 with
    | false =>
      rw [allocStep_of_refused hunbound halloc]
      refine ⟨t, l, ?_, ht, .inl ⟨rfl, rfl⟩⟩
      rw [rbTreeInsert, hdescent]
      dsimp only
      rw [show a.alloc = (false, a.alloc.2) from Prod.ext halloc rfl]
    | true =>
      have hnil : t.color nil = .black := by
        obtain ⟨-, -, -, -, hnil⟩ := ht.redBlack
        exact hnil
      have hfresh : t.fresh ∉ labels ctx := fun hmem => (ht.fresh _ (hl ▸ hmem)).false
      obtain ⟨m, hm, hrb⟩ := linkNew_fixup value hfoc hpath (hplug ▸ hbal) hnil ht.fresh_pos.ne'
        hfresh (lt_of_le_of_lt (length_le_labels ctx) (hl ▸ hfuel))
      rw [allocStep_of_granted hunbound halloc]
      refine ⟨_, _, ?_, ht.linkNew (y := ctxParent ctx) value hl hpath hrb, .inr ⟨rfl, ?_⟩⟩
      · rw [rbTreeInsert, hdescent]
        dsimp only
        rw [show a.alloc = (true, a.alloc.2) from Prod.ext halloc rfl]
        dsimp only
        rw [hm]
        rfl
      · rw [hl]
        exact List.perm_middle

/-- **A deletion** takes out the node with the key, if there is one, and frees it. The result does
not depend on what the freed node holds while the fixup is running. -/
theorem rbDeleteReleasing_nodes (ht : Represents h t l M) (key : κ) {fuel : ℕ}
    (hfuel : l.length < fuel) (junk : Addr → FreedNode κ υ) (a : Allocator)
    (hnodup : (nil :: l).Nodup) :
    ∃ t' l', rbDeleteReleasing cmp fuel junk t (allocationsOf (nil :: l).toFinset) key =
        some (t', allocationsOf (nil :: l').toFinset) ∧
      Represents h t' l' (allocStep h (M, a) (.delete key)).1 ∧ (nil :: l').Nodup ∧
      l'.length ≤ l.length := by
  classical
  obtain ⟨T, n, hT, hbal, hend⟩ := ht.searchEnd key hfuel
  cases hend with
  | absent ctx hfoc hplug hpath hinsert hsearch =>
    have hl : l = labels ctx := by
      rw [← hT, ← hplug, inorder_plug_nil]
    have hsame : (allocStep h (M, a) (.delete key)).1 = M := by
      rw [allocStep, ← ht.eq_none hl hpath, Function.update_eq_self]
    refine ⟨t, l, ?_, hsame.symm ▸ ht, hnodup, le_rfl⟩
    rw [rbDeleteReleasing, hsearch, Option.bind_some, if_pos rfl]
  | found ctx z l₁ r₁ hfoc hplug hequiv hinsert hsearch =>
    have hz : z ∈ l := by
      rw [← hT, ← hplug, mem_inorder_plug]
      simp [inorder]
    have hheld : .node z ∈ allocationsOf (nil :: l).toFinset :=
      node_mem_toFinset.mpr (List.mem_cons_of_mem _ hz)
    obtain ⟨t', l', hres, ht', -, hperm⟩ :=
      rbDeleteReleasing_found ht hT hbal hfoc hplug hequiv hsearch hfuel junk hheld
    have hperm' : (nil :: l).Perm (z :: nil :: l') := (hperm.cons nil).trans (.swap _ _ _)
    have hrelease := release_node hperm' hnodup
    rw [release_of_mem hheld] at hrelease
    refine ⟨t', l', ?_, ht', (List.nodup_cons.mp (hperm'.nodup_iff.mp hnodup)).2, ?_⟩
    · rw [hres, Option.some.inj hrelease]
    · rw [hperm.length_eq, List.length_cons]
      omega

end

/-! ## The calls with their blocks -/

/-- `create_tree` for `TREE_AVL`, with the blocks held when it returns. -/
def createAvlWithBlocks (a : Allocator) :
    Option (AvlTree κ υ) × Option (Finset Allocation) × Allocator :=
  let (ok, held, a) := allocPair .object .impl a
  (if ok then some createAvlTree else none, held, a)

/-- `create_tree` for `TREE_RED_BLACK`, with the blocks held when it returns. -/
def createRbWithBlocks [Inhabited κ] (a : Allocator) :
    Option (RbTree κ υ) × Option (Finset Allocation) × Allocator :=
  let (ok, held, a) := allocPair .object .impl a
  if !ok then (none, held, a)
  else
    let (sentinel, a) := a.alloc
    if !sentinel then (none, held.bind (andThen (release .impl) (release .object)), a)
    else (some createRbTree, held.map (insert (.node nil)), a)

/-- `tree_free_method` on an AVL tree. -/
def avlFreeMethod (t : AvlTree κ υ) : Freeing Allocation :=
  andThen (t.impl.treeFreeNode avlAddr (t.size + 1) t.root)
    (andThen (release .impl) (release .object))

/-- `tree_free_method` on a red-black tree. -/
def rbFreeMethod (t : RbTree κ υ) : Freeing Allocation :=
  andThen (if t.root ≠ nil then t.impl.treeFreeNode id (t.size + 1) t.root else some)
    (andThen (release (.node nil)) (andThen (release .impl) (release .object)))

/-- A tree, the blocks it holds, and the allocation attempts to come. -/
structure Owned (τ : Type*) where
  tree : τ
  held : Finset Allocation
  allocator : Allocator

/-- One call on an AVL tree, with the blocks held before and after. It has no outcome if a node is
freed that is not held, or if the recursion reads on in a subtree with a node that is not. -/
def avlOwnedCall (cmp : κ → κ → ℤ) (s : Owned (AvlTree κ υ)) :
    Call κ υ → Option (Owned (AvlTree κ υ))
  | .insert key value =>
    let (t, _, a) := avlInsertMethod cmp s.allocator s.tree (some key) value
    ifHeld s.tree.root s.held (some ⟨t, handOut s.tree.fresh t.fresh s.held, a⟩)
  | .delete key =>
    (avlDeleteReleasing cmp s.tree.root key s.tree.size s.held).bind fun (root, size, held) =>
      ifHeld root held
        (some ⟨{ size, fresh := s.tree.fresh, root := avlSetParent none root }, held, s.allocator⟩)

/-- One call on a red-black tree, with the blocks held before and after; `junk` is what `free`
leaves in a node. -/
def rbOwnedCall (cmp : κ → κ → ℤ) (fuel : ℕ) (junk : Addr → FreedNode κ υ)
    (s : Owned (RbTree κ υ)) : Call κ υ → Option (Owned (RbTree κ υ))
  | .insert key value =>
    (rbInsertMethod cmp fuel s.allocator s.tree (some key) value).map fun (t, _, a) =>
      ⟨t, handOut s.tree.fresh t.fresh s.held, a⟩
  | .delete key =>
    (rbDeleteReleasing cmp fuel junk s.tree s.held key).map fun (t, held) =>
      ⟨t, held, s.allocator⟩

/-! ## The invariants -/

theorem createAvlWithBlocks_cases (a : Allocator) :
    (∃ a', createAvlWithBlocks (κ := κ) (υ := υ) a =
      (some createAvlTree, some (allocationsOf ∅), a')) ∨
    ∃ a', createAvlWithBlocks (κ := κ) (υ := υ) a = (none, some ∅, a') := by
  rw [createAvlWithBlocks]
  rcases allocPair_cases .object .impl a with ⟨a', hpair⟩ | ⟨a', hpair⟩
  · exact .inl ⟨a', by rw [hpair, object_impl]; rfl⟩
  · exact .inr ⟨a', by rw [hpair]; rfl⟩

theorem createRbWithBlocks_cases [Inhabited κ] (a : Allocator) :
    (∃ a', createRbWithBlocks (κ := κ) (υ := υ) a =
      (some createRbTree, some (allocationsOf {nil}), a')) ∨
    ∃ a', createRbWithBlocks (κ := κ) (υ := υ) a = (none, some ∅, a') := by
  rw [createRbWithBlocks]
  rcases allocPair_cases .object .impl a with ⟨a', hpair⟩ | ⟨a', hpair⟩
  · rw [hpair, object_impl]
    cases halloc : a'.alloc.1 with
    | false => exact .inr ⟨a'.alloc.2, by simp [halloc, release_object]⟩
    | true => exact .inl ⟨a'.alloc.2, by simp [halloc, allocationsOf_insert]⟩
  · exact .inr ⟨a', by rw [hpair]; rfl⟩

/-- An insertion into an AVL tree asks for a node when the search finds none. -/
theorem insertNode_allocator (cmp : κ → κ → ℤ) (key : κ) (value : Option υ) (n : AvlNode κ υ)
    (parent : Option Addr) (c : AvlCounters) (a : Allocator) :
    (avlInsertNode cmp key value n parent c a).2.2 =
      if isNull (avlSearchNode cmp key n) then a.alloc.2 else a := by
  induction n generalizing parent with
  | nil =>
    rw [avlInsertNode, avlSearchNode]
    cases halloc : a.alloc.1 with
    | false =>
      rw [show a.alloc = (false, a.alloc.2) from Prod.ext halloc rfl]
      rfl
    | true =>
      rw [show a.alloc = (true, a.alloc.2) from Prod.ext halloc rfl]
      rfl
  | node d l r ihl ihr =>
    rw [avlInsertNode, avlSearchNode]
    by_cases heq : cmp key d.key = 0
    · rw [if_pos heq, if_pos heq]
      rfl
    · rw [if_neg heq, if_neg heq]
      by_cases hlt : cmp key d.key < 0
      · rw [if_pos hlt, if_pos hlt]
        exact ihl (some d.addr)
      · rw [if_neg hlt, if_neg hlt]
        exact ihr (some d.addr)

/-- **An insertion into an AVL tree** adds the node at the next address, if it allocates one. -/
theorem avlTreeInsert_nodes {t : AvlTree κ υ} {M : KeyMap h υ} (ht : AvlRepresents h t M) (key : κ)
    (value : Option υ) (a : Allocator) :
    ∃ t', avlTreeInsert cmp a t key value = (t', (allocStep h (M, a) (.insert key value)).2) ∧
      AvlRepresents h t' (allocStep h (M, a) (.insert key value)).1 ∧
      (t'.fresh = t.fresh ∧ addrs t'.root = addrs t.root ∨
        t'.fresh = t.fresh + 1 ∧ (addrs t'.root).Perm (t.fresh :: addrs t.root)) := by
  classical
  obtain ⟨hmade, hfailed⟩ := avlTreeInsert_any ht key value a
  have hallocator : (avlTreeInsert cmp a t key value).2 = _ :=
    insertNode_allocator cmp key value t.root none t.toAvlCounters a
  by_cases hnode : avlSearchNode cmp key t.root ≠ .nil ∨ a.alloc.1 = true
  · refine ⟨(avlTreeInsert cmp a t key value).1, Prod.ext rfl (hallocator.trans ?_), ?_, ?_⟩
    · rcases ht.searchNode key with ⟨hnil, hM⟩ | ⟨d, l, r, hfound, hM⟩
      · rw [allocStep_of_granted hM (hnode.resolve_left (not_not.mpr hnil)), hnil]
        rfl
      · rw [allocStep_of_bound hM, hfound]
        rfl
    · rcases ht.searchNode key with ⟨hnil, hM⟩ | ⟨d, l, r, hfound, hM⟩
      · rw [allocStep_of_granted hM (hnode.resolve_left (not_not.mpr hnil))]
        exact hmade hnode
      · rw [allocStep_of_bound hM]
        exact hmade hnode
    · obtain ⟨hroot, hcounters⟩ := insertNode_alloc cmp key value hnode none t.toAvlCounters
      obtain ⟨root, counters, hins, hcases⟩ :=
        insertNode_addrs cmp key value t.root none t.toAvlCounters
      rw [hins] at hroot hcounters
      simp only [avlTreeInsert, hroot, hcounters, addrs_setParent]
      rcases hcases with ⟨haddrs, rfl⟩ | ⟨haddrs, rfl⟩
      · exact .inl ⟨rfl, haddrs⟩
      · exact .inr ⟨rfl, haddrs⟩
  · obtain ⟨hnone, halloc⟩ := not_or.mp hnode
    have hnone := not_not.mp hnone
    have halloc := Bool.eq_false_iff.mpr halloc
    have hM : M (h.keyClass key) = none := by
      rcases ht.searchNode key with ⟨-, hM⟩ | ⟨d, l, r, hfound, -⟩
      · exact hM
      · rw [hnone] at hfound
        cases hfound
    rw [allocStep_of_refused hM halloc]
    refine ⟨(avlTreeInsert cmp a t key value).1, Prod.ext rfl (hallocator.trans ?_),
      (hfailed hnone halloc).1, .inl ?_⟩
    · rw [hnone]
      rfl
    · obtain ⟨-, haddrs, hcounters⟩ :=
        insertNode_noNode cmp key value halloc hnone none t.toAvlCounters
      simp only [avlTreeInsert, hcounters, addrs_setParent, haddrs]
      exact ⟨trivial, trivial⟩

/-- **One call on an AVL tree** keeps the books. -/
theorem avlOwnedCall_spec {s : Owned (AvlTree κ υ)} {M : KeyMap h υ}
    (ht : AvlRepresents h s.tree M) (hheld : s.held = allocationsOf (addrs s.tree.root).toFinset)
    (c : Call κ υ) :
    ∃ s', avlOwnedCall cmp s c = some s' ∧
      AvlRepresents h s'.tree (allocStep h (M, s.allocator) c).1 ∧
      s'.allocator = (allocStep h (M, s.allocator) c).2 ∧
      s'.held = allocationsOf (addrs s'.tree.root).toFinset := by
  classical
  have hall : AllHeld s.tree.root s.held := by
    intro a ha
    rw [hheld]
    exact node_mem_toFinset.mpr ha
  cases c with
  | insert key value =>
    obtain ⟨t', hins, ht', hnodes⟩ := avlTreeInsert_nodes ht key value s.allocator
    refine ⟨⟨t', handOut s.tree.fresh t'.fresh s.held, _⟩, ?_, ht', rfl, ?_⟩
    · simp only [avlOwnedCall, avlInsertMethod, hins]
      exact if_pos hall
    · rw [hheld]
      exact handOut_list hnodes
  | delete key =>
    have ht' := avlTreeDelete_spec ht key
    have hres := avlDeleteReleasing_eq cmp ht.nodup hall key s.tree.size
    have hfreed := deleteNode_freed cmp s.tree.root key s.tree.size
    obtain ⟨root, hroot⟩ : ∃ root, root = (avlDeleteNode cmp s.tree.root key s.tree.size).1 :=
      ⟨_, rfl⟩
    rw [← hroot] at hres hfreed
    have hleft : heldWithout (avlFreed cmp s.tree.root key) s.held =
        allocationsOf (addrs root).toFinset := by
      rw [hheld]
      cases hz : avlFreed cmp s.tree.root key with
      | none =>
        rw [hz] at hfreed
        rw [heldWithout, Option.elim_none, List.toFinset_eq_of_perm _ _ hfreed]
        rfl
      | some z =>
        rw [hz] at hfreed
        have hmem : z ∈ addrs s.tree.root := hfreed.mem_iff.mpr List.mem_cons_self
        have hrelease := release_node hfreed ht.nodup
        rw [release_of_mem (node_mem_toFinset.mpr hmem)] at hrelease
        rw [heldWithout, Option.elim_some]
        exact Option.some.inj hrelease
    have hend : AllHeld root (allocationsOf (addrs root).toFinset) := by
      intro a ha
      exact node_mem_toFinset.mpr ha
    refine ⟨⟨avlTreeDelete cmp s.tree key, allocationsOf (addrs root).toFinset, s.allocator⟩, ?_,
      ht', rfl, ?_⟩
    · rw [avlOwnedCall, hres, hleft, Option.bind_some]
      dsimp only
      rw [ifHeld, if_pos hend, avlTreeDelete, hroot]
    · rw [avlTreeDelete, addrs_setParent, hroot]

/-- **One call on a red-black tree** keeps the books, whatever the freed nodes hold. -/
theorem rbOwnedCall_spec {s : Owned (RbTree κ υ)} {l : List Addr} {M : KeyMap h υ}
    (ht : Represents h s.tree l M) (hnodup : (nil :: l).Nodup)
    (hheld : s.held = allocationsOf (nil :: l).toFinset) (c : Call κ υ) {fuel : ℕ}
    (hfuel : l.length < fuel) (junk : Addr → FreedNode κ υ) :
    ∃ s' l', rbOwnedCall cmp fuel junk s c = some s' ∧
      Represents h s'.tree l' (allocStep h (M, s.allocator) c).1 ∧
      s'.allocator = (allocStep h (M, s.allocator) c).2 ∧
      s'.held = allocationsOf (nil :: l').toFinset ∧ (nil :: l').Nodup ∧
      l'.length ≤ l.length + 1 := by
  cases c with
  | insert key value =>
    obtain ⟨t', l', hins, ht', hnodes⟩ := rbTreeInsert_nodes ht key value s.allocator hfuel
    have hlist : t'.fresh = s.tree.fresh ∧ nil :: l' = nil :: l ∨ t'.fresh = s.tree.fresh + 1 ∧
        (nil :: l').Perm (s.tree.fresh :: nil :: l) := by
      rcases hnodes with ⟨hfresh, rfl⟩ | ⟨hfresh, hperm⟩
      · exact .inl ⟨hfresh, rfl⟩
      · exact .inr ⟨hfresh, (hperm.cons nil).trans (.swap _ _ _)⟩
    refine ⟨⟨t', handOut s.tree.fresh t'.fresh s.held, _⟩, l', ?_, ht', rfl, ?_, ?_, ?_⟩
    · simp only [rbOwnedCall, rbInsertMethod, hins, Option.map_some]
    · rw [hheld]
      exact handOut_list hlist
    · rcases hlist with ⟨-, hlist⟩ | ⟨-, hperm⟩
      · rwa [hlist]
      · refine hperm.nodup_iff.mpr (List.nodup_cons.mpr ⟨fun hmem => ?_, hnodup⟩)
        rcases List.mem_cons.mp hmem with heq | hmem
        · exact ht.fresh_pos.ne' heq
        · exact (ht.fresh _ hmem).false
    · rcases hnodes with ⟨-, rfl⟩ | ⟨-, hperm⟩
      · omega
      · rw [hperm.length_eq, List.length_cons]
  | delete key =>
    obtain ⟨t', l', hres, ht', hnodup', hlen⟩ :=
      rbDeleteReleasing_nodes ht key hfuel junk s.allocator hnodup
    refine ⟨⟨t', allocationsOf (nil :: l').toFinset, s.allocator⟩, l', ?_, ht', rfl, rfl, hnodup',
      by omega⟩
    rw [rbOwnedCall, hheld, hres]
    rfl

/-! ## Every run -/

theorem avlOwnedRun_spec (calls : List (Call κ υ)) {s : Owned (AvlTree κ υ)} {M : KeyMap h υ}
    (ht : AvlRepresents h s.tree M)
    (hheld : s.held = allocationsOf (addrs s.tree.root).toFinset) :
    ∃ s', calls.foldlM (avlOwnedCall cmp) s = some s' ∧
      AvlRepresents h s'.tree (calls.foldl (allocStep h) (M, s.allocator)).1 ∧
      s'.held = allocationsOf (addrs s'.tree.root).toFinset := by
  induction calls generalizing s M with
  | nil => exact ⟨s, rfl, ht, hheld⟩
  | cons c calls ih =>
    obtain ⟨s', hcall, ht', hallocator, hheld'⟩ := avlOwnedCall_spec ht hheld c
    obtain ⟨s'', hrun, ht'', hheld''⟩ := ih ht' hheld'
    refine ⟨s'', ?_, ?_, hheld''⟩
    · rw [List.foldlM_cons, hcall]
      exact hrun
    · rw [hallocator] at ht''
      exact ht''

theorem rbOwnedRun_spec (calls : List (Call κ υ)) {s : Owned (RbTree κ υ)} {l : List Addr}
    {M : KeyMap h υ} (ht : Represents h s.tree l M) (hnodup : (nil :: l).Nodup)
    (hheld : s.held = allocationsOf (nil :: l).toFinset) {fuel : ℕ}
    (hfuel : l.length + calls.length < fuel) (junk : Addr → FreedNode κ υ) :
    ∃ s' l', calls.foldlM (rbOwnedCall cmp fuel junk) s = some s' ∧
      Represents h s'.tree l' (calls.foldl (allocStep h) (M, s.allocator)).1 ∧
      s'.held = allocationsOf (nil :: l').toFinset ∧ (nil :: l').Nodup := by
  induction calls generalizing s l M with
  | nil => exact ⟨s, l, rfl, ht, hheld, hnodup⟩
  | cons c calls ih =>
    rw [List.length_cons] at hfuel
    obtain ⟨s', l', hcall, ht', hallocator, hheld', hnodup', hlen⟩ :=
      rbOwnedCall_spec ht hnodup hheld c (show l.length < fuel by omega) junk
    obtain ⟨s'', l'', hrun, ht'', hheld'', hnodup''⟩ := ih ht' hnodup' hheld' (by omega)
    refine ⟨s'', l'', ?_, ?_, hheld'', hnodup''⟩
    · rw [List.foldlM_cons, hcall]
      exact hrun
    · rw [hallocator] at ht''
      exact ht''

/-- **`tree_free_method` frees everything** an AVL tree holds. -/
theorem avlFreeMethod_eq {t : AvlTree κ υ} {M : KeyMap h υ} (ht : AvlRepresents h t M) :
    avlFreeMethod t (allocationsOf (addrs t.root).toFinset) = some ∅ := by
  have hlength := ht.size
  rw [← inorder_map_addr] at hlength
  have hconsumes := (plants_avl t t.root).consumes
    (height_lt (show (inorder _).length < t.size + 1 by omega))
  rw [inorder_map_addr] at hconsumes
  rw [avlFreeMethod, andThen, allocationsOf_of_consumes hconsumes ht.nodup fun a => by simp,
    Option.bind_some, release_object]

/-- **`tree_free_method` frees everything** a red-black tree holds, the sentinel last. -/
theorem rbFreeMethod_eq {t : RbTree κ υ} {l : List Addr} {M : KeyMap h υ}
    (ht : Represents h t l M) (hnodup : (nil :: l).Nodup) :
    rbFreeMethod t (allocationsOf (nil :: l).toFinset) = some ∅ := by
  obtain ⟨T, hfoc, rfl, -, -⟩ := ht.redBlack
  have hnodes : Consumes (if t.root ≠ nil then t.impl.treeFreeNode id (t.size + 1) t.root else some)
      ((inorder T).map .node) := by
    split
    · exact (plants_rb hfoc.tree).consumes (height_lt (ht.size ▸ Nat.lt_succ_self _))
    · next hroot =>
      have hT : T = .nil := by
        cases T with
        | nil => rfl
        | node a l r => exact absurd (not_not.mp hroot) (hfoc.tree.1 ▸ hfoc.tree.2.1)
      rw [hT]
      exact consumes_skip
  have hall : Consumes (andThen
      (if t.root ≠ nil then t.impl.treeFreeNode id (t.size + 1) t.root else some)
      (release (.node nil))) ((nil :: inorder T).map .node) := by
    refine (hnodes.andThen (consumes_release _)).perm ?_
    rw [List.map_cons]
    exact List.perm_append_singleton _ _
  have hfree := allocationsOf_of_consumes hall hnodup fun a => List.mem_toFinset.symm
  rw [rbFreeMethod, ← andThen_assoc, andThen, hfree, Option.bind_some, release_object]

/-- **Nothing is leaked, freed twice or relied on once freed**, in either kind of tree. A tree that
cannot be created holds nothing. A run of calls on one that was, whatever allocations fail, ends
with the balanced tree of the finite map that the calls build on paper; the nodes held are those of
the tree and no others, and `tree_free_method` ends with nothing held. An AVL tree reads held nodes
only; of a red-black tree all this is so whatever `free` leaves in a node. -/
theorem tree_frees [Inhabited κ] (h : IsComparator cmp) (calls : List (Call κ υ)) (a : Allocator)
    {fuel : ℕ} (hfuel : calls.length < fuel) (junk : Addr → FreedNode κ υ) :
    ((∃ a', createAvlWithBlocks (κ := κ) (υ := υ) a = (none, some ∅, a')) ∨
      ∃ t held a' s, createAvlWithBlocks (κ := κ) (υ := υ) a = (some t, some held, a') ∧
        calls.foldlM (avlOwnedCall cmp) ⟨t, held, a'⟩ = some s ∧
        AvlRepresents h s.tree (calls.foldl (allocStep h) (fun _ => none, a')).1 ∧
        (∀ p, .node p ∈ s.held ↔ p ∈ addrs s.tree.root) ∧ s.held.card = s.tree.size + 2 ∧
        avlFreeMethod s.tree s.held = some ∅) ∧
    ((∃ a', createRbWithBlocks (κ := κ) (υ := υ) a = (none, some ∅, a')) ∨
      ∃ t held a' s T, createRbWithBlocks (κ := κ) (υ := υ) a = (some t, some held, a') ∧
        calls.foldlM (rbOwnedCall cmp fuel junk) ⟨t, held, a'⟩ = some s ∧
        RedBlackTree cmp s.tree T ∧
        Represents h s.tree (inorder T) (calls.foldl (allocStep h) (fun _ => none, a')).1 ∧
        (∀ p, .node p ∈ s.held ↔ p = nil ∨ p ∈ inorder T) ∧ s.held.card = s.tree.size + 3 ∧
        rbFreeMethod s.tree s.held = some ∅) := by
  constructor
  · rcases createAvlWithBlocks_cases (κ := κ) (υ := υ) a with ⟨a', hcreate⟩ | ⟨a', hcreate⟩
    · obtain ⟨s, hrun, ht, hheld⟩ := avlOwnedRun_spec (h := h) calls
        (s := ⟨createAvlTree, allocationsOf ∅, a'⟩) (avlRepresents_createAvlTree (υ := υ) h)
        (by simp [createAvlTree])
      refine .inr ⟨_, _, a', s, hcreate, hrun, ht, fun p => ?_, ?_, ?_⟩
      · rw [hheld, node_mem_toFinset]
      · rw [hheld, card_allocationsOf_list ht.nodup, ht.size]
      · rw [hheld]
        exact avlFreeMethod_eq ht
    · exact .inl ⟨a', hcreate⟩
  · rcases createRbWithBlocks_cases (κ := κ) (υ := υ) a with ⟨a', hcreate⟩ | ⟨a', hcreate⟩
    · obtain ⟨s, l, hrun, ht, hheld, hnodup⟩ := rbOwnedRun_spec (h := h) calls
        (s := ⟨createRbTree, allocationsOf {nil}, a'⟩) (represents_createRbTree (υ := υ) h)
        (List.nodup_singleton nil) (by simp) (show [].length + calls.length < fuel by simpa) junk
      obtain ⟨T, hT, rfl⟩ := ht.redBlackTree
      refine .inr ⟨_, _, a', s, T, hcreate, hrun, hT, ht, fun p => ?_, ?_, ?_⟩
      · rw [hheld, node_mem_toFinset, List.mem_cons]
      · rw [hheld, card_allocationsOf_list hnodup, List.length_cons, ht.size]
      · rw [hheld]
        exact rbFreeMethod_eq ht hnodup
    · exact .inl ⟨a', hcreate⟩

/-- Both kinds of tree, with integer keys. The third attempt fails, and the keys 5, 3, 8, 7 and 9
are there when 8 goes, a node with two children; a freed node comes to look like a red node above
all others. -/
theorem tree_frees_subtract :
    let calls : List (Call ℤ ℕ) := [.insert 1 none, .insert 5 (some 50), .insert 3 (some 30),
      .insert 8 none, .insert 7 (some 70), .insert 9 (some 90), .delete 8, .delete 8, .delete 3]
    (∃ t held a' s, createAvlWithBlocks ⟨fun k => k ≠ 2⟩ = (some t, some held, a') ∧
      calls.foldlM (avlOwnedCall fun x y => x - y) ⟨t, held, a'⟩ = some s ∧
      s.tree.size = 3 ∧ s.held.card = 5 ∧ avlFreeMethod s.tree s.held = some ∅) ∧
    ∃ t held a' s, createRbWithBlocks ⟨fun k => k ≠ 3⟩ = (some t, some held, a') ∧
      calls.foldlM (rbOwnedCall (fun x y => x - y) 10 fun _ => ⟨fun _ => 2, 1, .red, 100, none⟩)
        ⟨t, held, a'⟩ = some s ∧
      s.tree.size = 3 ∧ s.held.card = 6 ∧ rbFreeMethod s.tree s.held = some ∅ := by
  intro calls
  obtain ⟨havl, -⟩ := tree_frees subtract_isComparator calls ⟨fun k => k ≠ 2⟩
    (show calls.length < 10 by decide) fun _ => ⟨fun _ => 2, 1, .red, 100, none⟩
  obtain ⟨-, hrb⟩ := tree_frees subtract_isComparator calls ⟨fun k => k ≠ 3⟩
    (show calls.length < 10 by decide) fun _ => ⟨fun _ => 2, 1, .red, 100, none⟩
  constructor
  · rcases havl with ⟨a', hnone⟩ | ⟨t, held, a', s, hcreate, hrun, -, -, hcard, hfree⟩
    · cases (Prod.mk.inj hnone).1
    · refine ⟨t, held, a', s, hcreate, hrun, ?_⟩
      cases hcreate
      have hsizes := congrArg (Option.map fun s : Owned (AvlTree ℤ ℕ) => s.tree.size) hrun
      have hsize : some s.tree.size = some 3 := hsizes.symm.trans (by decide +kernel)
      have hsize := Option.some.inj hsize
      rw [hsize] at hcard
      exact ⟨hsize, hcard, hfree⟩
  · rcases hrb with ⟨a', hnone⟩ | ⟨t, held, a', s, T, hcreate, hrun, -, -, -, hcard, hfree⟩
    · cases (Prod.mk.inj hnone).1
    · refine ⟨t, held, a', s, hcreate, hrun, ?_⟩
      cases hcreate
      have hsizes := congrArg (Option.map fun s : Owned (RbTree ℤ ℕ) => s.tree.size) hrun
      have hsize : some s.tree.size = some 3 := hsizes.symm.trans (by decide +kernel)
      have hsize := Option.some.inj hsize
      rw [hsize] at hcard
      exact ⟨hsize, hcard, hfree⟩

end Tree

end OvaLib
