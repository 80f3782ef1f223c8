import OvaLib.Foundation.SortedList
import OvaLib.Tree.AvlInvariant

/-!
# The AVL tree is a finite map

Insertion and deletion act on the sorted list of bindings as `insertSorted` and `eraseKey` do: the
comparison with a node's key tells on which side of it the place is, and rotations do not change the
list.

## Between the tree and the map

The list of the bindings in order is the level between. On it an operation is local: the place of a
key is where the keys below it end. That the tree finds this place is by induction on the subtree,
and that the list then binds the right values is a matter of sorted lists, which the library has. A
deletion of a node with two children is two steps on the list as well: the binding of the successor
replaces the one that is deleted, and is erased where it was.

`AvlRepresents` has the addresses next to the bindings. They say that the nodes are distinct and
that the next address is a new one, which the model of `free` needs later.

## The comparator

It is a total preorder that may be called any number of times, and equivalent keys are one key. The
key that is stored stays when its value is overwritten.

## Main results

* `insertNode_bindings`, `deleteNode_spec` — the recursive functions
* `avlTreeInsert_spec`, `avlTreeDelete_spec` — one operation
* `avlTree_refines_map` — a whole run
-/

namespace OvaLib

namespace Tree

open Foundation

variable {κ υ : Type*} {cmp : κ → κ → ℤ}

/-- What the nodes bind, in order. -/
def bindings (n : AvlNode κ υ) : List (κ × Option υ) := (entries n).map Prod.snd

/-- The addresses of the nodes, in order. -/
def addrs (n : AvlNode κ υ) : List Addr := (entries n).map Prod.fst

@[simp] theorem bindings_nil : bindings (.nil : AvlNode κ υ) = [] := rfl

@[simp] theorem addrs_nil : addrs (.nil : AvlNode κ υ) = [] := rfl

@[simp] theorem bindings_node (d : NodeData κ υ) (l r : AvlNode κ υ) :
    bindings (.node d l r) = bindings l ++ (d.key, d.value) :: bindings r := by
  simp [bindings]

@[simp] theorem addrs_node (d : NodeData κ υ) (l r : AvlNode κ υ) :
    addrs (.node d l r) = addrs l ++ d.addr :: addrs r := by
  simp [addrs]

theorem bindings_congr {n n' : AvlNode κ υ} (h : entries n = entries n') :
    bindings n = bindings n' := by
  rw [bindings, h, bindings]

theorem addrs_congr {n n' : AvlNode κ υ} (h : entries n = entries n') : addrs n = addrs n' := by
  rw [addrs, h, addrs]

@[simp] theorem bindings_setParent (p : Option Addr) (n : AvlNode κ υ) :
    bindings (avlSetParent p n) = bindings n :=
  bindings_congr (entries_setParent p n)

@[simp] theorem addrs_setParent (p : Option Addr) (n : AvlNode κ υ) :
    addrs (avlSetParent p n) = addrs n :=
  addrs_congr (entries_setParent p n)

@[simp] theorem bindings_insertRebalance (key : κ) (d : NodeData κ υ) (l r : AvlNode κ υ) :
    bindings (avlInsertRebalance cmp key d l r) = bindings l ++ (d.key, d.value) :: bindings r :=
  (bindings_congr (entries_insertRebalance cmp key d l r)).trans (bindings_node d l r)

@[simp] theorem addrs_insertRebalance (key : κ) (d : NodeData κ υ) (l r : AvlNode κ υ) :
    addrs (avlInsertRebalance cmp key d l r) = addrs l ++ d.addr :: addrs r :=
  (addrs_congr (entries_insertRebalance cmp key d l r)).trans (addrs_node d l r)

@[simp] theorem bindings_deleteRebalance (d : NodeData κ υ) (l r : AvlNode κ υ) :
    bindings (avlDeleteRebalance d l r) = bindings l ++ (d.key, d.value) :: bindings r :=
  (bindings_congr (entries_deleteRebalance d l r)).trans (bindings_node d l r)

@[simp] theorem addrs_deleteRebalance (d : NodeData κ υ) (l r : AvlNode κ υ) :
    addrs (avlDeleteRebalance d l r) = addrs l ++ d.addr :: addrs r :=
  (addrs_congr (entries_deleteRebalance d l r)).trans (addrs_node d l r)

theorem length_bindings (n : AvlNode κ υ) : (bindings n).length = (addrs n).length := by
  rw [bindings, addrs, List.length_map, List.length_map]

/-! ## Insertion -/

/-- **Insertion** inserts into the sorted bindings. -/
theorem insertNode_bindings (h : IsComparator cmp) (key : κ) (value : Option υ) {n : AvlNode κ υ}
    (hs : KeysAscend cmp (bindings n)) (parent : Option Addr) (t : AvlCounters) :
    bindings (avlInsertNode cmp key value n parent t .always).1 =
      insertSorted cmp key value (bindings n) := by
  induction n generalizing parent with
  | nil => rfl
  | node d l r ihl ihr =>
    rw [bindings_node] at hs ⊢
    obtain ⟨hl, hr, -⟩ := KeysAscend.append_cons_iff.mp hs
    rw [avlInsertNode]
    rcases lt_trichotomy (cmp key d.key) 0 with hlt | heq | hgt
    · rw [if_neg hlt.ne, if_pos hlt, hs.insertSorted_of_lt h hlt, ← ihl hl (some d.addr)]
      simp
    · rw [if_pos heq, hs.insertSorted_of_eq h heq]
      simp
    · rw [if_neg hgt.ne', if_neg (not_lt.mpr hgt.le), hs.insertSorted_of_gt h hgt,
        ← ihr hr (some d.addr)]
      simp

/-- The address of a new node is the next one, and nothing else changes about the addresses. -/
theorem insertNode_addrs (cmp : κ → κ → ℤ) (key : κ) (value : Option υ) (n : AvlNode κ υ)
    (parent : Option Addr) (t : AvlCounters) :
    ∃ n' t', avlInsertNode cmp key value n parent t .always = (n', t', .always) ∧
      (addrs n' = addrs n ∧ t' = t ∨ (addrs n').Perm (t.fresh :: addrs n) ∧
        t' = { size := t.size + 1, fresh := t.fresh + 1 }) := by
  induction n generalizing parent with
  | nil =>
    exact ⟨_, _, rfl, .inr ⟨by simp [avlNewNode], rfl⟩⟩
  | node d l r ihl ihr =>
    rw [avlInsertNode]
    split_ifs with heq hlt
    · exact ⟨_, _, rfl, .inl ⟨by simp, rfl⟩⟩
    · obtain ⟨l', t', hins, hl'⟩ := ihl (some d.addr)
      rw [hins]
      refine ⟨_, t', rfl, ?_⟩
      rw [addrs_insertRebalance, addrs_setParent, addrs_node]
      rcases hl' with ⟨hl', ht'⟩ | ⟨hl', ht'⟩
      · exact .inl ⟨by rw [hl'], ht'⟩
      · exact .inr ⟨hl'.append_right _, ht'⟩
    · obtain ⟨r', t', hins, hr'⟩ := ihr (some d.addr)
      rw [hins]
      refine ⟨_, t', rfl, ?_⟩
      rw [addrs_insertRebalance, addrs_setParent, addrs_node]
      rcases hr' with ⟨hr', ht'⟩ | ⟨hr', ht'⟩
      · exact .inl ⟨by rw [hr'], ht'⟩
      · have hperm := (hr'.append_left (addrs l ++ [d.addr])).trans List.perm_middle
        exact .inr ⟨by simpa using hperm, ht'⟩

/-! ## Deletion -/

/-- **Deletion** erases the key from the sorted bindings. -/
structure DeleteSpec (cmp : κ → κ → ℤ) (n : AvlNode κ υ) (key : κ) (size : ℕ)
    (res : AvlNode κ υ × ℕ) : Prop where
  bindings_eq : bindings res.1 = eraseKey cmp key (bindings n)
  addrs_sublist : (addrs res.1).Sublist (addrs n)
  size_eq : res.2 + (addrs n).length = size + (addrs res.1).length

theorem deleteNode_spec (h : IsComparator cmp) {n : AvlNode κ υ}
    (hs : KeysAscend cmp (bindings n)) (key : κ) {size : ℕ} (hsize : (addrs n).length ≤ size) :
    DeleteSpec cmp n key size (avlDeleteNode cmp n key size) := by
  induction n generalizing key size with
  | nil => exact ⟨rfl, List.Sublist.refl _, rfl⟩
  | node d l r ihl ihr =>
    rw [bindings_node] at hs
    rw [addrs_node, List.length_append, List.length_cons] at hsize
    obtain ⟨hl, hr, hld, hdr, -⟩ := KeysAscend.append_cons_iff.mp hs
    rcases lt_trichotomy (cmp key d.key) 0 with hlt | heq | hgt
    · obtain ⟨hbind, haddrs, hlen⟩ := ihl hl key (show (addrs l).length ≤ size by omega)
      rw [deleteNode_of_lt hlt]
      refine ⟨?_, ?_, ?_⟩
      · rw [bindings_deleteRebalance, bindings_setParent, hbind, bindings_node,
          hs.eraseKey_of_lt h hlt]
      · simpa using haddrs
      · simp only [addrs_deleteRebalance, addrs_setParent, addrs_node, List.length_append,
          List.length_cons]
        omega
    · by_cases hnil : l = .nil ∨ r = .nil
      · obtain ⟨child, hchild, hdel⟩ := deleteNode_of_child heq hnil size
        have hone :
            bindings child = bindings l ++ bindings r ∧ addrs child = addrs l ++ addrs r := by
          rcases hchild with ⟨rfl, rfl⟩ | ⟨rfl, rfl⟩ <;> simp
        rw [hdel]
        refine ⟨?_, ?_, ?_⟩
        · rw [bindings_setParent, hone.1, bindings_node, hs.eraseKey_of_eq h heq]
        · rw [addrs_setParent, hone.2, addrs_node]
          exact (List.sublist_cons_self _ _).append_left _
        · simp only [addrs_setParent, hone.2, addrs_node, List.length_append, List.length_cons]
          omega
      · obtain ⟨hlne, hrne⟩ := not_or.mp hnil
        obtain ⟨succ, rest, hmin, hentries⟩ := exists_minNode hrne
        have hr' : bindings r = (succ.key, succ.value) :: rest.map Prod.snd := by
          rw [bindings, hentries, List.map_cons]
        obtain ⟨hbind, haddrs, hlen⟩ := ihr hr succ.key (show (addrs r).length ≤ size by omega)
        have hrest : eraseKey cmp succ.key (bindings r) = rest.map Prod.snd := by
          rw [hr'] at hr ⊢
          exact KeysAscend.eraseKey_of_eq (l := []) h hr (h.self succ.key)
        rw [deleteNode_of_two heq hlne hrne hmin]
        refine ⟨?_, ?_, ?_⟩
        · rw [bindings_deleteRebalance, bindings_setParent, hbind, bindings_node,
            hs.eraseKey_of_eq h heq, hrest, hr']
        · simpa using haddrs
        · simp only [addrs_deleteRebalance, addrs_setParent, addrs_node, List.length_append,
            List.length_cons]
          omega
    · obtain ⟨hbind, haddrs, hlen⟩ := ihr hr key (show (addrs r).length ≤ size by omega)
      rw [deleteNode_of_gt hgt]
      refine ⟨?_, ?_, ?_⟩
      · rw [bindings_deleteRebalance, bindings_setParent, hbind, bindings_node,
          hs.eraseKey_of_gt h hgt]
      · simpa using haddrs
      · simp only [addrs_deleteRebalance, addrs_setParent, addrs_node, List.length_append,
          List.length_cons]
        omega

/-! ## The coupling invariant -/

/-- **The coupling invariant**: an AVL tree of ascending keys that lists the bindings. -/
structure AvlRepresents (h : IsComparator cmp) (t : AvlTree κ υ) (M : KeyMap h υ) : Prop where
  isAvl : IsAvl t.root
  root_parent : ParentIs none t.root
  nodup : (addrs t.root).Nodup
  /-- No two nodes have equivalent keys. -/
  ascending : KeysAscend cmp (bindings t.root)
  lists : Lists (fun p => h.keyClass p.1) Prod.snd (bindings t.root) M
  size : t.size = (addrs t.root).length
  /-- The next address is not one of the tree. -/
  fresh : ∀ a ∈ addrs t.root, a < t.fresh

variable {h : IsComparator cmp} {t : AvlTree κ υ} {M : KeyMap h υ}

open Classical in
/-- **`avl_tree_insert`** binds the key. -/
theorem avlTreeInsert_spec (ht : AvlRepresents h t M) (key : κ) (value : Option υ) :
    AvlRepresents h (avlTreeInsert cmp .always t key value).1
      (Function.update M (h.keyClass key) (some value)) := by
  obtain ⟨root, counters, hins, haddrs⟩ :=
    insertNode_addrs cmp key value t.root none t.toAvlCounters
  have havl := insertNode_isAvl cmp key value ht.isAvl none t.toAvlCounters .always _ rfl
  have hbind := insertNode_bindings h key value ht.ascending none t.toAvlCounters
  rw [hins] at havl hbind
  simp only [avlTreeInsert, hins]
  have hlists : Lists (fun p => h.keyClass p.1) Prod.snd (bindings root)
      (Function.update M (h.keyClass key) (some value)) := by
    rw [hbind]
    exact Lists.insertSorted ht.ascending ht.lists key value
  have hascending : KeysAscend cmp (bindings root) := by
    rw [hbind]
    exact ht.ascending.insertSorted h key value
  refine ⟨havl.1.setParent none, parentIs_setParent none root, ?_, ?_, ?_, ?_, ?_⟩
  · rw [addrs_setParent]
    rcases haddrs with ⟨haddrs, -⟩ | ⟨haddrs, -⟩
    · rw [haddrs]
      exact ht.nodup
    · rw [haddrs.nodup_iff, List.nodup_cons]
      exact ⟨fun hmem => (ht.fresh _ hmem).ne rfl, ht.nodup⟩
  · rwa [bindings_setParent]
  · rwa [bindings_setParent]
  · rw [addrs_setParent]
    rcases haddrs with ⟨haddrs, rfl⟩ | ⟨haddrs, rfl⟩
    · rw [haddrs]
      exact ht.size
    · rw [haddrs.length_eq, List.length_cons, ← ht.size]
  · rw [addrs_setParent]
    rcases haddrs with ⟨haddrs, rfl⟩ | ⟨haddrs, rfl⟩
    · rw [haddrs]
      exact ht.fresh
    · intro a ha
      rcases List.mem_cons.mp (haddrs.mem_iff.mp ha) with rfl | ha
      · exact Nat.lt_succ_self _
      · exact (ht.fresh a ha).trans (Nat.lt_succ_self _)

open Classical in
/-- **`avl_tree_delete`** unbinds the key. -/
theorem avlTreeDelete_spec (ht : AvlRepresents h t M) (key : κ) :
    AvlRepresents h (avlTreeDelete cmp t key) (Function.update M (h.keyClass key) none) := by
  obtain ⟨havl, -⟩ := deleteNode_isAvl cmp ht.isAvl key t.size _ rfl
  have hspec := deleteNode_spec h ht.ascending key ht.size.ge
  refine ⟨havl.setParent none, parentIs_setParent none _, ?_, ?_, ?_, ?_, ?_⟩
  · rw [avlTreeDelete, addrs_setParent]
    exact ht.nodup.sublist hspec.addrs_sublist
  · rw [avlTreeDelete, bindings_setParent, hspec.bindings_eq]
    exact ht.ascending.eraseKey key
  · rw [avlTreeDelete, bindings_setParent, hspec.bindings_eq]
    exact ht.lists.eraseKey key
  · have hsize := hspec.size_eq
    have hold := ht.size
    rw [avlTreeDelete, addrs_setParent]
    show (avlDeleteNode cmp t.root key t.size).2 = _
    omega
  · rw [avlTreeDelete, addrs_setParent]
    exact fun a ha => ht.fresh a (hspec.addrs_sublist.subset ha)

/-! ## Whole runs -/

/-- The model's step; every allocation succeeds. -/
def avlStep (cmp : κ → κ → ℤ) (t : AvlTree κ υ) : Call κ υ → AvlTree κ υ
  | .insert key value => (avlInsertMethod cmp .always t (some key) value).1
  | .delete key => (avlDeleteMethod cmp t (some key)).1

/-- A run of the model. -/
def avlRun (cmp : κ → κ → ℤ) (t : AvlTree κ υ) (calls : List (Call κ υ)) : AvlTree κ υ :=
  calls.foldl (avlStep cmp) t

theorem avlStep_refines (ht : AvlRepresents h t M) (call : Call κ υ) :
    AvlRepresents h (avlStep cmp t call) (mapStep h M call) := by
  cases call with
  | insert key value => exact avlTreeInsert_spec ht key value
  | delete key => exact avlTreeDelete_spec ht key

/-- **A run simulates the run on the finite map.** -/
theorem avlRun_refines (ht : AvlRepresents h t M) (calls : List (Call κ υ)) :
    AvlRepresents h (avlRun cmp t calls) (calls.foldl (mapStep h) M) := by
  induction calls generalizing t M with
  | nil => exact ht
  | cons call calls ih => exact ih (avlStep_refines ht call)

theorem avlRepresents_createAvlTree (h : IsComparator cmp) :
    AvlRepresents h (createAvlTree : AvlTree κ υ) fun _ => none where
  isAvl := isAvl_nil
  root_parent := trivial
  nodup := List.nodup_nil
  ascending := List.Pairwise.nil
  lists := .nil
  size := rfl
  fresh := by simp [createAvlTree]

/-- **The AVL tree is a finite map.** After every run of insertions and deletions the heights
stored are the real ones, siblings differ in height by at most one, the parent fields name the
parents, the keys ascend, and the nodes list the bindings of the finite map the same calls build.
The size is their number. -/
theorem avlTree_refines_map (h : IsComparator cmp) (calls : List (Call κ υ)) :
    ∃ t : AvlTree κ υ, avlRun cmp createAvlTree calls = t ∧ ForallNodes AvlAt t.root ∧
      ParentIs none t.root ∧ (addrs t.root).Nodup ∧ KeysAscend cmp (bindings t.root) ∧
      Lists (fun p => h.keyClass p.1) Prod.snd (bindings t.root)
        (calls.foldl (mapStep h) fun _ => none) ∧
      t.size = (support (calls.foldl (mapStep h) fun _ => none)).ncard := by
  have ht := avlRun_refines (avlRepresents_createAvlTree (υ := υ) h) calls
  refine ⟨_, rfl, ht.isAvl, ht.root_parent, ht.nodup, ht.ascending, ht.lists, ?_⟩
  rw [ht.lists.ncard_support, length_bindings, ht.size]

/-- A run that rotates, overwrites, and deletes a node with two children. -/
theorem avlTree_refines_map_subtract :
    let calls : List (Call ℤ ℕ) := [.insert 1 (some 10), .insert 2 none, .insert 3 (some 30),
      .insert 4 (some 40), .insert 3 none, .delete 2, .delete 7]
    ∃ t : AvlTree ℤ ℕ, avlRun (fun a b => a - b) createAvlTree calls = t ∧
      ForallNodes AvlAt t.root ∧
      t.size = (support (calls.foldl (mapStep subtract_isComparator) fun _ => none)).ncard := by
  intro calls
  obtain ⟨t, hrun, havl, -, -, -, -, hsize⟩ := avlTree_refines_map subtract_isComparator calls
  exact ⟨t, hrun, havl, hsize⟩

end Tree

end OvaLib
