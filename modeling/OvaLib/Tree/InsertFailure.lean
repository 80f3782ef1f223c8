import OvaLib.Tree.AvlRefinement
import OvaLib.Tree.RedBlackMethods

/-!
# Insertion without memory

The functions behind `tree_insert_method` return nothing, so it cannot know that the new node was
not to be had. The tree itself keeps: a failed insertion leaves the bindings as they were, through
all the rebalancing on the way back.

## The contract that is broken

`tree.h` says that `insert` returns `OVA_SUCCESS`, or a negative code on failure.
`tree_insert_method` has the code for an invalid argument, but `avl_tree_insert` and
`rb_tree_insert` are `void`, and after either of them it returns `OVA_SUCCESS`. A caller can only
notice by a search, or by the size.

An insertion needs a node when its key is new, so the report is true exactly when the key has a node
or one can be allocated. `treeInsert_reports_iff` states this for both kinds of tree, after any run
in which allocations failed or not, with what a report should be taken from the documentation:
success only if the value is found afterwards, and with a failure everything as it was.

## Main results

* `avlSearchMethod_eq` — a search of an AVL tree finds the value bound to the key
* `avlTreeInsert_any`, `rbTreeInsert_any` — an insertion, whatever its allocation does
* `treeInsert_reports_iff` — when the code that is returned tells what happened
-/

namespace OvaLib

namespace Tree

open Foundation

variable {κ υ : Type*}

/-! ## Search in an AVL tree

The loop of `tree_search_node`, over the tree that ends in `NULL`. -/

/-- `tree_search_node` on an AVL tree. -/
def avlSearchNode (cmp : κ → κ → ℤ) (key : κ) : AvlNode κ υ → AvlNode κ υ
  | .nil => .nil
  | .node d l r =>
    if cmp key d.key = 0 then .node d l r
    else if cmp key d.key < 0 then avlSearchNode cmp key l
    else avlSearchNode cmp key r

/-- `tree_search_method` on an AVL tree. -/
def avlSearchMethod (cmp : κ → κ → ℤ) (t : AvlTree κ υ) (key : Option κ) : Option υ :=
  match key with
  | none => none
  | some key =>
    match avlSearchNode cmp key t.root with
    | .nil => none
    | .node d _ _ => d.value

/-- `tree_size_method` on an AVL tree. -/
def avlSizeMethod (t : AvlTree κ υ) : ℤ := int32 t.size

variable {cmp : κ → κ → ℤ}

/-- Where a search comes to an end. -/
theorem searchNode_spec (h : IsComparator cmp) (key : κ) {n : AvlNode κ υ}
    (hs : KeysAscend cmp (bindings n)) :
    (avlSearchNode cmp key n = .nil ∧ ∀ p ∈ bindings n, cmp key p.1 ≠ 0) ∨
      ∃ d l r, avlSearchNode cmp key n = .node d l r ∧ (d.key, d.value) ∈ bindings n ∧
        cmp key d.key = 0 := by
  induction n with
  | nil => exact .inl ⟨rfl, fun p hp => absurd hp List.not_mem_nil⟩
  | node d l r ihl ihr =>
    rw [bindings_node] at hs ⊢
    obtain ⟨hl, hr, -⟩ := KeysAscend.append_cons_iff.mp hs
    rw [avlSearchNode]
    rcases lt_trichotomy (cmp key d.key) 0 with hlt | heq | hgt
    · rw [if_neg hlt.ne, if_pos hlt]
      have hright := hs.lt_right h hlt.le
      rcases ihl hl with ⟨hnil, hnone⟩ | ⟨d', l', r', hfound, hmem, hkey⟩
      · refine .inl ⟨hnil, fun p hp => ?_⟩
        rcases List.mem_append.mp hp with hp | hp
        · exact hnone p hp
        · rcases List.mem_cons.mp hp with rfl | hp
          · exact hlt.ne
          · exact (hright p hp).ne
      · exact .inr ⟨d', l', r', hfound, List.mem_append_left _ hmem, hkey⟩
    · rw [if_pos heq]
      exact .inr ⟨d, l, r, rfl, List.mem_append_right _ List.mem_cons_self, heq⟩
    · rw [if_neg hgt.ne', if_neg (not_lt.mpr hgt.le)]
      have hleft := hs.gt_left h hgt.le
      rcases ihr hr with ⟨hnil, hnone⟩ | ⟨d', l', r', hfound, hmem, hkey⟩
      · refine .inl ⟨hnil, fun p hp => ?_⟩
        rcases List.mem_append.mp hp with hp | hp
        · exact (hleft p hp).ne'
        · rcases List.mem_cons.mp hp with rfl | hp
          · exact hgt.ne'
          · exact hnone p hp
      · refine .inr ⟨d', l', r', hfound, ?_, hkey⟩
        exact List.mem_append_right _ (List.mem_cons_of_mem _ hmem)

variable {h : IsComparator cmp} {t : AvlTree κ υ} {M : KeyMap h υ}

theorem AvlRepresents.searchNode (ht : AvlRepresents h t M) (key : κ) :
    (avlSearchNode cmp key t.root = .nil ∧ M (h.keyClass key) = none) ∨
      ∃ d l r, avlSearchNode cmp key t.root = .node d l r ∧
        M (h.keyClass key) = some d.value := by
  rcases searchNode_spec h key ht.ascending with ⟨hnil, hnone⟩ | ⟨d, l, r, hfound, hmem, hkey⟩
  · refine .inl ⟨hnil, ht.lists.eq_none_iff.mpr fun p hp heq => hnone p hp ?_⟩
    exact h.keyClass_eq_iff.mp heq.symm
  · refine .inr ⟨d, l, r, hfound, ?_⟩
    rw [h.keyClass_eq_iff.mpr hkey]
    exact ht.lists.of_mem hmem

/-- **A search of an AVL tree** finds the value bound to the key. -/
theorem avlSearchMethod_eq (ht : AvlRepresents h t M) (key : κ) :
    avlSearchMethod cmp t (some key) = (M (h.keyClass key)).join := by
  rw [avlSearchMethod]
  rcases ht.searchNode key with ⟨hnil, hM⟩ | ⟨d, l, r, hfound, hM⟩
  · rw [hnil, hM]
    rfl
  · rw [hfound, hM]
    rfl

/-! ## An insertion, whatever its allocation does -/

/-- An insertion asks for a node at most once, and only the answer matters. -/
theorem insertNode_alloc (cmp : κ → κ → ℤ) (key : κ) (value : Option υ) {a : Allocator}
    {n : AvlNode κ υ} (hnode : avlSearchNode cmp key n ≠ .nil ∨ a.alloc.1 = true)
    (parent : Option Addr) (c : AvlCounters) :
    (avlInsertNode cmp key value n parent c a).1 =
        (avlInsertNode cmp key value n parent c .always).1 ∧
      (avlInsertNode cmp key value n parent c a).2.1 =
        (avlInsertNode cmp key value n parent c .always).2.1 := by
  induction n generalizing parent with
  | nil =>
    have halloc := hnode.resolve_left fun hne => hne rfl
    rw [avlInsertNode, avlInsertNode, Allocator.alloc_always, ← Prod.eta a.alloc, halloc]
    exact ⟨rfl, rfl⟩
  | node d l r ihl ihr =>
    rw [avlSearchNode] at hnode
    rw [avlInsertNode, avlInsertNode]
    split_ifs at hnode ⊢ with heq hlt
    · exact ⟨rfl, rfl⟩
    · obtain ⟨hl, hc⟩ := ihl hnode (some d.addr)
      exact ⟨by simp only [hl], hc⟩
    · obtain ⟨hr, hc⟩ := ihr hnode (some d.addr)
      exact ⟨by simp only [hr], hc⟩

/-- Without the node, the rebalancing on the way back does not touch the bindings. -/
theorem insertNode_noNode (cmp : κ → κ → ℤ) (key : κ) (value : Option υ) {a : Allocator}
    (halloc : a.alloc.1 = false) {n : AvlNode κ υ} (hnone : avlSearchNode cmp key n = .nil)
    (parent : Option Addr) (c : AvlCounters) :
    bindings (avlInsertNode cmp key value n parent c a).1 = bindings n ∧
      addrs (avlInsertNode cmp key value n parent c a).1 = addrs n ∧
        (avlInsertNode cmp key value n parent c a).2.1 = c := by
  induction n generalizing parent with
  | nil =>
    rw [avlInsertNode, ← Prod.eta a.alloc, halloc]
    exact ⟨rfl, rfl, rfl⟩
  | node d l r ihl ihr =>
    rw [avlSearchNode] at hnone
    rw [avlInsertNode]
    split_ifs at hnone ⊢ with heq hlt
    · obtain ⟨hbind, haddrs, hc⟩ := ihl hnone (some d.addr)
      simp only [bindings_insertRebalance, addrs_insertRebalance, bindings_setParent,
        addrs_setParent, bindings_node, addrs_node, hbind, haddrs]
      exact ⟨trivial, trivial, hc⟩
    · obtain ⟨hbind, haddrs, hc⟩ := ihr hnone (some d.addr)
      simp only [bindings_insertRebalance, addrs_insertRebalance, bindings_setParent,
        addrs_setParent, bindings_node, addrs_node, hbind, haddrs]
      exact ⟨trivial, trivial, hc⟩

open Classical in
/-- **An insertion into an AVL tree** binds the key, or changes nothing when the node it needs is
not to be had. -/
theorem avlTreeInsert_any (ht : AvlRepresents h t M) (key : κ) (value : Option υ) (a : Allocator) :
    (avlSearchNode cmp key t.root ≠ .nil ∨ a.alloc.1 = true →
      AvlRepresents h (avlTreeInsert cmp a t key value).1
        (Function.update M (h.keyClass key) (some value))) ∧
    (avlSearchNode cmp key t.root = .nil → a.alloc.1 = false →
      AvlRepresents h (avlTreeInsert cmp a t key value).1 M ∧
        (avlTreeInsert cmp a t key value).1.size = t.size) := by
  constructor
  · intro hnode
    obtain ⟨hroot, hcounters⟩ := insertNode_alloc cmp key value hnode none t.toAvlCounters
    have hinsert : (avlTreeInsert cmp a t key value).1 =
        (avlTreeInsert cmp .always t key value).1 := by
      simp only [avlTreeInsert, hroot, hcounters]
    rw [hinsert]
    exact avlTreeInsert_spec ht key value
  · intro hnone halloc
    obtain ⟨hbind, haddrs, hcounters⟩ :=
      insertNode_noNode cmp key value halloc hnone none t.toAvlCounters
    have havl := (insertNode_isAvl cmp key value ht.isAvl none t.toAvlCounters a _ rfl).1
    simp only [avlTreeInsert, hcounters]
    refine ⟨⟨havl.setParent none, parentIs_setParent none _, ?_, ?_, ?_, ?_, ?_⟩, trivial⟩
    · rw [addrs_setParent, haddrs]
      exact ht.nodup
    · rw [bindings_setParent, hbind]
      exact ht.ascending
    · rw [bindings_setParent, hbind]
      exact ht.lists
    · rw [addrs_setParent, haddrs]
      exact ht.size
    · rw [addrs_setParent, haddrs]
      exact ht.fresh

open Classical in
/-- **An insertion into a red-black tree** binds the key, or changes nothing when the node it needs
is not to be had. -/
theorem rbTreeInsert_any {t : RbTree κ υ} {l : List Addr} (ht : Represents h t l M) (key : κ)
    (value : Option υ) (a : Allocator) {fuel : ℕ} (hfuel : l.length < fuel) :
    (treeSearchNode cmp fuel t key ≠ some nil ∨ a.alloc.1 = true →
      ∃ t' l' a', rbTreeInsert cmp fuel a t key value = some (t', a') ∧
        Represents h t' l' (Function.update M (h.keyClass key) (some value)) ∧
        l'.length ≤ l.length + 1) ∧
    (treeSearchNode cmp fuel t key = some nil → a.alloc.1 = false →
      rbTreeInsert cmp fuel a t key value = some (t, a.alloc.2)) := by
  obtain ⟨t', l', hins, ht', hlen⟩ := rbTreeInsert_spec ht key value hfuel
  obtain ⟨T, n, hT, -, hend⟩ := ht.searchEnd key hfuel
  cases hend with
  | found ctx b left right hfoc hplug hequiv hinsert hsearch =>
    have hleft : Focus t.toLinks ctx (branch .left b left right) b := hfoc
    have hdescent : insertDescent cmp t key fuel t.root nil = some (.inl b) := hinsert
    rw [rbTreeInsert, hdescent] at hins
    have hsame := (Prod.mk.inj (Option.some.inj hins)).1
    constructor
    · intro _
      refine ⟨t', l', a, ?_, ht', hlen⟩
      rw [rbTreeInsert, hdescent, ← hsame]
    · intro hnone
      rw [treeSearchNode, hsearch] at hnone
      exact absurd (Option.some.inj hnone) hleft.ne_nil
  | absent ctx hfoc hplug hpath hinsert hsearch =>
    have hdescent : insertDescent cmp t key fuel t.root nil = some (.inr (ctxParent ctx)) := hinsert
    constructor
    · intro hnode
      have halloc : a.alloc = (true, a.alloc.2) :=
        Prod.ext (hnode.resolve_left fun hne => hne hsearch) rfl
      rw [rbTreeInsert, hdescent] at hins
      obtain ⟨m, hm, hpair⟩ := Option.map_eq_some_iff.mp hins
      refine ⟨t', l', a.alloc.2, ?_, ht', hlen⟩
      rw [rbTreeInsert, hdescent]
      dsimp only
      rw [halloc]
      dsimp only
      rw [hm, Option.map_some, ← (Prod.mk.inj hpair).1]
    · intro _ halloc
      rw [rbTreeInsert, hdescent]
      dsimp only
      rw [show a.alloc = (false, a.alloc.2) from Prod.ext halloc rfl]

/-! ## Runs where allocations may fail

The outcome of each allocation is a part of the run. -/

/-- One call on an AVL tree. -/
def avlCall (cmp : κ → κ → ℤ) (s : AvlTree κ υ × Allocator) : Call κ υ → AvlTree κ υ × Allocator
  | .insert key value =>
    let (t, _, a) := avlInsertMethod cmp s.2 s.1 (some key) value
    (t, a)
  | .delete key => ((avlDeleteMethod cmp s.1 (some key)).1, s.2)

/-- One call on a red-black tree. -/
def rbCall (cmp : κ → κ → ℤ) (fuel : ℕ) (s : RbTree κ υ × Allocator) :
    Call κ υ → Option (RbTree κ υ × Allocator)
  | .insert key value =>
    (rbInsertMethod cmp fuel s.2 s.1 (some key) value).map fun r => (r.1, r.2.2)
  | .delete key => (rbDeleteMethod cmp fuel s.1 (some key)).map fun r => (r.1, s.2)

theorem avlCalls_represents {s : AvlTree κ υ × Allocator} (calls : List (Call κ υ))
    (hs : ∃ M, AvlRepresents h s.1 M) : ∃ M, AvlRepresents h (calls.foldl (avlCall cmp) s).1 M := by
  classical
  induction calls generalizing s with
  | nil => exact hs
  | cons call calls ih =>
    obtain ⟨M, ht⟩ := hs
    refine ih ?_
    cases call with
    | insert key value =>
      obtain ⟨hmade, hfailed⟩ := avlTreeInsert_any ht key value s.2
      by_cases hnode : avlSearchNode cmp key s.1.root ≠ .nil ∨ s.2.alloc.1 = true
      · exact ⟨_, hmade hnode⟩
      · obtain ⟨hnone, halloc⟩ := not_or.mp hnode
        exact ⟨_, (hfailed (not_not.mp hnone) (Bool.eq_false_iff.mpr halloc)).1⟩
    | delete key => exact ⟨_, avlTreeDelete_spec ht key⟩

theorem rbCalls_represents {s : RbTree κ υ × Allocator} {l : List Addr} (calls : List (Call κ υ))
    (ht : Represents h s.1 l M) {fuel : ℕ} (hfuel : l.length + calls.length < fuel) :
    ∃ s' l' M', calls.foldlM (rbCall cmp fuel) s = some s' ∧ Represents h s'.1 l' M' ∧
      l'.length ≤ l.length + calls.length := by
  classical
  induction calls generalizing s l M with
  | nil => exact ⟨s, l, M, rfl, ht, Nat.le_refl _⟩
  | cons call calls ih =>
    rw [List.length_cons] at hfuel
    have hstep : ∃ s' l' M', rbCall cmp fuel s call = some s' ∧ Represents h s'.1 l' M' ∧
        l'.length ≤ l.length + 1 := by
      cases call with
      | insert key value =>
        obtain ⟨hmade, hfailed⟩ := rbTreeInsert_any ht key value s.2 (show l.length < fuel by omega)
        by_cases hnode : treeSearchNode cmp fuel s.1 key ≠ some nil ∨ s.2.alloc.1 = true
        · obtain ⟨t', l', a', hins, ht', hlen⟩ := hmade hnode
          exact ⟨(t', a'), l', _, by simp [rbCall, rbInsertMethod, hins], ht', hlen⟩
        · obtain ⟨hnone, halloc⟩ := not_or.mp hnode
          have hins := hfailed (not_not.mp hnone) (Bool.eq_false_iff.mpr halloc)
          exact ⟨(s.1, s.2.alloc.2), l, M, by simp [rbCall, rbInsertMethod, hins], ht,
            Nat.le_succ _⟩
      | delete key =>
        obtain ⟨t', l', hdel, ht', hlen⟩ := rbTreeDelete_spec ht key (show l.length < fuel by omega)
        exact ⟨(t', s.2), l', _, by simp [rbCall, rbDeleteMethod, hdel], ht', by omega⟩
    obtain ⟨s', l', M', hcall, ht', hlen⟩ := hstep
    obtain ⟨s'', l'', M'', hrun, ht'', hlen'⟩ := ih ht' (by omega)
    refine ⟨s'', l'', M'', ?_, ht'', by rw [List.length_cons]; omega⟩
    rw [List.foldlM_cons, hcall]
    exact hrun

/-! ## What an insertion reports -/

/-- What an insertion should report, given the searches and the sizes before and after it: success
only if the value is found, and an error with all answers as before if it `failed`. -/
structure InsertReports {β : Type*} (search search' : κ → β) (size size' : ℤ) (code : ErrorCode)
    (failed : Prop) (key : κ) (found : β) : Prop where
  success : code = .success → search' key = found
  /-- A failure is reported, and changes no answer. -/
  failure : failed → code ≠ .success ∧ (∀ k, search' k = search k) ∧ size' = size

/-- What an insertion into an AVL tree reports is true. -/
def AvlReports (cmp : κ → κ → ℤ) (t : AvlTree κ υ) (a : Allocator) (key : κ) (value : υ) : Prop :=
  let (t', code, _) := avlInsertMethod cmp a t (some key) (some value)
  InsertReports (fun k => avlSearchMethod cmp t (some k)) (fun k => avlSearchMethod cmp t' (some k))
    (avlSizeMethod t) (avlSizeMethod t') code
    (avlSearchNode cmp key t.root = .nil ∧ a.alloc.1 = false) key (some value)

/-- What an insertion into a red-black tree reports is true. -/
def RbReports (cmp : κ → κ → ℤ) (fuel : ℕ) (t : RbTree κ υ) (a : Allocator) (key : κ)
    (value : υ) : Prop :=
  ∃ t' code a', rbInsertMethod cmp fuel a t (some key) (some value) = some (t', code, a') ∧
    InsertReports (fun k => treeSearchMethod cmp fuel t (some k))
      (fun k => treeSearchMethod cmp fuel t' (some k)) (treeSizeMethod t) (treeSizeMethod t') code
      (treeSearchNode cmp fuel t key = some nil ∧ a.alloc.1 = false) key (some (some value))

/-- Success is reported in any case, so what is reported is true when nothing failed. -/
theorem insertReports_iff {β : Type*} {search search' : κ → β} {size size' : ℤ}
    {absent failed : Prop} {key : κ} {found : β} (hmade : ¬absent ∨ ¬failed → search' key = found) :
    InsertReports search search' size size' .success (absent ∧ failed) key found ↔
      ¬absent ∨ ¬failed := by
  rw [← not_and_or]
  constructor
  · exact fun hreports hnot => (hreports.failure hnot).1 rfl
  · exact fun h => ⟨fun _ => hmade (not_and_or.mp h), fun hnot => absurd hnot h⟩

/-- Without the node, all answers of an AVL tree are as before. -/
theorem AvlRepresents.unchanged (ht : AvlRepresents h t M) {key : κ} {value : Option υ}
    {a : Allocator} (hnone : avlSearchNode cmp key t.root = .nil) (halloc : a.alloc.1 = false) :
    (∀ k, avlSearchMethod cmp (avlTreeInsert cmp a t key value).1 (some k) =
      avlSearchMethod cmp t (some k)) ∧
    avlSizeMethod (avlTreeInsert cmp a t key value).1 = avlSizeMethod t := by
  classical
  obtain ⟨ht', hsize⟩ := (avlTreeInsert_any ht key value a).2 hnone halloc
  refine ⟨fun k => ?_, congrArg (fun n : ℕ => int32 n) hsize⟩
  rw [avlSearchMethod_eq ht, avlSearchMethod_eq ht']

/-- **When an insertion reports the truth**, after any run: exactly when the key has a node or one
can be allocated. -/
theorem treeInsert_reports_iff [Inhabited κ] (h : IsComparator cmp) (calls : List (Call κ υ))
    (a₀ a : Allocator) (key : κ) (value : υ) {fuel : ℕ} (hfuel : calls.length + 1 < fuel) :
    (∃ t : AvlTree κ υ, ∃ a₁, calls.foldl (avlCall cmp) (createAvlTree, a₀) = (t, a₁) ∧
      (AvlReports cmp t a key value ↔
        ¬avlSearchNode cmp key t.root = .nil ∨ ¬a.alloc.1 = false)) ∧
    ∃ t : RbTree κ υ, ∃ a₁, calls.foldlM (rbCall cmp fuel) (createRbTree, a₀) = some (t, a₁) ∧
      (RbReports cmp fuel t a key value ↔
        ¬treeSearchNode cmp fuel t key = some nil ∨ ¬a.alloc.1 = false) := by
  classical
  constructor
  · obtain ⟨M, ht⟩ := avlCalls_represents (s := (createAvlTree, a₀)) calls
      ⟨_, avlRepresents_createAvlTree (υ := υ) h⟩
    refine ⟨_, _, rfl, insertReports_iff fun hnode => ?_⟩
    rw [Bool.not_eq_false] at hnode
    refine (avlSearchMethod_eq ((avlTreeInsert_any ht key (some value) a).1 hnode) key).trans ?_
    rw [Function.update_self, Option.join_some]
  · obtain ⟨⟨t, a₁⟩, l, M, hrun, ht, hlen⟩ := rbCalls_represents (s := (createRbTree, a₀)) calls
      (represents_createRbTree h) (show [].length + calls.length < fuel by simp; omega)
    rw [List.length_nil, Nat.zero_add] at hlen
    dsimp only at ht
    obtain ⟨hmade, hfailed⟩ := rbTreeInsert_any ht key (some value) a
      (show l.length < fuel by omega)
    obtain ⟨t', a', hins, hfound⟩ : ∃ t' a',
        rbTreeInsert cmp fuel a t key (some value) = some (t', a') ∧
        (¬treeSearchNode cmp fuel t key = some nil ∨ ¬a.alloc.1 = false →
          treeSearchMethod cmp fuel t' (some key) = some (some value)) := by
      by_cases hnode : treeSearchNode cmp fuel t key ≠ some nil ∨ a.alloc.1 = true
      · obtain ⟨t', l', a', hins, ht', hlen'⟩ := hmade hnode
        refine ⟨t', a', hins, fun _ => ?_⟩
        rw [treeSearchMethod_eq ht' key (by omega), Function.update_self, Option.join_some]
      · obtain ⟨hnone, halloc⟩ := not_or.mp hnode
        have hins := hfailed (not_not.mp hnone) (Bool.eq_false_iff.mpr halloc)
        exact ⟨t, a.alloc.2, hins, fun h => absurd (by rwa [Bool.not_eq_false] at h) hnode⟩
    have hmethod : rbInsertMethod cmp fuel a t (some key) (some value) =
        some (t', .success, a') := by rw [rbInsertMethod, hins, Option.map_some]
    refine ⟨t, a₁, hrun, ?_⟩
    constructor
    · rintro ⟨t'', code, a'', hins', hreports⟩
      obtain ⟨rfl, rfl, rfl⟩ : t' = t'' ∧ ErrorCode.success = code ∧ a' = a'' := by
        simpa using hmethod.symm.trans hins'
      refine (insertReports_iff ?_).mp hreports
      exact hfound
    · intro hnode
      refine ⟨t', .success, a', hmethod, (insertReports_iff ?_).mpr hnode⟩
      exact hfound

theorem treeInsert_reports_iff_subtract :
    (∃ t : AvlTree ℤ ℕ, ∃ a₁, [Call.insert 1 (some 5)].foldl (avlCall fun x y => x - y)
        (createAvlTree, .always) = (t, a₁) ∧
      (AvlReports (fun x y => x - y) t .always 2 7 ↔
        ¬avlSearchNode (fun x y => x - y) 2 t.root = .nil ∨ ¬Allocator.always.alloc.1 = false)) ∧
    ∃ t : RbTree ℤ ℕ, ∃ a₁, [Call.insert 1 (some 5)].foldlM (rbCall (fun x y => x - y) 3)
        (createRbTree, .always) = some (t, a₁) ∧
      (RbReports (fun x y => x - y) 3 t .always 2 7 ↔
        ¬treeSearchNode (fun x y => x - y) 3 t 2 = some nil ∨
          ¬Allocator.always.alloc.1 = false) :=
  treeInsert_reports_iff subtract_isComparator [.insert 1 (some 5)] .always .always 2 7 (by decide)

/-- The first insertion into an empty tree of either type: the node is not to be had, the key is not
there afterwards, and success is reported. -/
theorem treeInsert_lost :
    ((avlInsertMethod (fun x y => x - y) ⟨fun _ => false⟩ (createAvlTree : AvlTree ℤ ℕ) (some 2)
        (some 7)).2.1 = .success ∧
      ¬AvlReports (fun x y => x - y) (createAvlTree : AvlTree ℤ ℕ) ⟨fun _ => false⟩ 2 7) ∧
    (rbInsertMethod (fun x y => x - y) 2 ⟨fun _ => false⟩ (createRbTree : RbTree ℤ ℕ) (some 2)
        (some 7)).map (fun r => r.2.1) = some .success ∧
      ¬RbReports (fun x y => x - y) 2 (createRbTree : RbTree ℤ ℕ) ⟨fun _ => false⟩ 2 7 := by
  refine ⟨⟨rfl, fun hreports => ?_⟩, rfl, ?_⟩
  · exact absurd (hreports.success rfl) (by decide)
  · rintro ⟨t', code, a', hins, hreports⟩
    obtain ⟨rfl, rfl, rfl⟩ : createRbTree = t' ∧ ErrorCode.success = code ∧ _ = a' := by
      simpa using (Option.some.inj hins)
    exact absurd (hreports.success rfl) (by decide)

end Tree

end OvaLib
