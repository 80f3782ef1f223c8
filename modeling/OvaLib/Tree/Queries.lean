import OvaLib.Lists.ArrayList
import OvaLib.Tree.InsertFailure

/-!
# The queries of a tree

The methods of `tree.c` that look for the nearest key or for many keys. They serve both kinds of
tree, which mark an empty place differently: with `NULL`, or with the sentinel. What they read of
either is a `TreeImpl`.

## The contract

`min` and `max` return the value at the least and at the greatest key. `predecessor` and `successor`
return the value at the nearest key that is strictly less, or strictly greater, whether or not the
key itself is there. A range query returns a list of the values between two keys, both included, in
the order of the keys, and a traversal calls back for every entry in that order. Each of the first
four returns `NULL` when there is no such key, as it does for a value that is `NULL`.

## How the answers are found

A descent goes on at one side of a node or at the other, so the mirrored methods are one loop each,
and what the loop finds is the first entry of its kind in the list of the bindings read from one
side. The node that is the best so far is kept on the way; it is on the path, and everything between
it and the place where the path ends is on the other side.

The recursion of a range query leaves out a side of a node when the key of the node says that
nothing there is in the range. The list it returns starts with room for all values in a tree of
fewer than `2 ^ 20` keys, and grows otherwise. What an insertion into that list returns is ignored,
so the answer for a larger tree is stated with memory for the list.

## Main results

* `Spells.treeEndNode`, `Spells.treeNearest` — the two descents
* `Spells.treeRangeQueryNode`, `Spells.treeInOrderNode` — the two recursions
* `tree_queries` — all the queries, after any run
-/

namespace OvaLib

namespace Tree

open Foundation

variable {κ υ ν σ : Type*}

/-- The fields of `tree_node` that the queries read. -/
structure NodeFields (κ υ ν : Type*) where
  child : Side → ν
  key : κ
  value : Option υ

/-- `tree_impl`, as the queries read it. The fields of a node are looked up by its pointer, and
there are none at the pointer that marks an empty place: `NULL`, or the sentinel. Whether there are
any is what `tree_node_is_nil` and the conditions of the loops ask. -/
structure TreeImpl (κ υ ν : Type*) where
  root : ν
  nil : ν
  size : ℕ
  node : ν → Option (NodeFields κ υ ν)
  node_nil : node nil = none

/-- `tree_impl` of an AVL tree. -/
def AvlTree.impl (t : AvlTree κ υ) : TreeImpl κ υ (AvlNode κ υ) where
  root := t.root
  nil := .nil
  size := t.size
  node
    | .nil => none
    | .node d l r =>
      some { child := fun | .left => l | .right => r, key := d.key, value := d.value }
  node_nil := rfl

/-- `tree_impl` of a red-black tree. -/
def RbTree.impl (t : RbTree κ υ) : TreeImpl κ υ Addr where
  root := t.root
  nil := nil
  size := t.size
  node a :=
    if a = Tree.nil then none
    else some { child := fun side => t.child side a, key := t.key a, value := t.value a }
  node_nil := if_pos rfl

namespace TreeImpl

/-! ## The methods -/

section

variable (t : TreeImpl κ υ ν)

/-- What a method returns for the node it has found: `NULL` if there is none. -/
def valueOf (n : ν) : Option υ := (t.node n).bind NodeFields.value

/-- `tree_min_node` and `tree_max_node`: on to the last node on one side. -/
def treeEndNode (side : Side) : ℕ → ν → Option ν
  | 0, _ => none
  | fuel + 1, node =>
    match t.node node with
    | none => some t.nil
    | some fields =>
      match t.node (fields.child side) with
      | none => some node
      | some _ => treeEndNode side fuel (fields.child side)

/-- `tree_min_node`. -/
def treeMinNode : ℕ → ν → Option ν := t.treeEndNode .left

/-- `tree_max_node`. -/
def treeMaxNode : ℕ → ν → Option ν := t.treeEndNode .right

/-- `tree_min_method`. -/
def treeMinMethod (fuel : ℕ) : Option (Option υ) := (t.treeMinNode fuel t.root).map t.valueOf

/-- `tree_max_method`. -/
def treeMaxMethod (fuel : ℕ) : Option (Option υ) := (t.treeMaxNode fuel t.root).map t.valueOf

/-- `tree_in_order_node`. -/
def treeInOrderNode (callback : σ → κ → Option υ → σ) : ℕ → ν → σ → Option σ
  | 0, _, _ => none
  | fuel + 1, node, s =>
    match t.node node with
    | none => some s
    | some fields => do
      let s ← treeInOrderNode callback fuel (fields.child .left) s
      let s := callback s fields.key fields.value
      treeInOrderNode callback fuel (fields.child .right) s

/-- `tree_in_order_traverse_method`. -/
def treeInOrderTraverseMethod (fuel : ℕ) (callback : σ → κ → Option υ → σ) (s : σ) : Option σ :=
  t.treeInOrderNode callback fuel t.root s

/-- The capacity `tree_range_query_method` asks for. -/
def rangeCapacity : ℤ := if 0 < t.size ∧ t.size < 1024 * 1024 then t.size else 4

variable (cmp : κ → κ → ℤ)

/-- The loops of `tree_predecessor_method` and `tree_successor_method`: a node that the comparison
says to skip leads on to the given side, and any other is the best so far. -/
def treeNearest (side : Side) (skip : ℤ → Prop) [DecidablePred skip] (key : κ) :
    ℕ → ν → ν → Option ν
  | 0, _, _ => none
  | fuel + 1, cur, best =>
    match t.node cur with
    | none => some best
    | some fields =>
      if skip (cmp key fields.key) then treeNearest side skip key fuel (fields.child side) best
      else treeNearest side skip key fuel (fields.child side.opp) cur

/-- `tree_predecessor_method`. -/
def treePredecessorMethod (fuel : ℕ) (key : Option κ) : Option (Option υ) :=
  match key with
  | none => some none
  | some key => (t.treeNearest cmp .left (· ≤ 0) key fuel t.root t.nil).map t.valueOf

/-- `tree_successor_method`. -/
def treeSuccessorMethod (fuel : ℕ) (key : Option κ) : Option (Option υ) :=
  match key with
  | none => some none
  | some key => (t.treeNearest cmp .right (0 ≤ ·) key fuel t.root t.nil).map t.valueOf

/-- `tree_range_query_node`. What the insertions return is ignored. -/
def treeRangeQueryNode (low high : κ) :
    ℕ → ν → ArrayList (Option υ) × Allocator → Option (ArrayList (Option υ) × Allocator)
  | 0, _, _ => none
  | fuel + 1, node, out =>
    match t.node node with
    | none => some out
    | some fields => do
      let cmpLow := cmp fields.key low
      let cmpHigh := cmp fields.key high
      let out ←
        (if 0 < cmpLow then treeRangeQueryNode low high fuel (fields.child .left) out else some out)
      let out :=
        if 0 ≤ cmpLow ∧ cmpHigh ≤ 0 then (out.1.insert fields.value out.1.size out.2).2 else out
      if cmpHigh < 0 then treeRangeQueryNode low high fuel (fields.child .right) out else some out

/-- `tree_range_query_method`. -/
def treeRangeQueryMethod (fuel : ℕ) (a : Allocator) (low high : Option κ) :
    Option (Option (ArrayList (Option υ)) × Allocator) :=
  match low, high with
  | some low, some high =>
    if 0 < cmp low high then some (none, a)
    else
      match ArrayList.create t.rangeCapacity a with
      | (none, a) => some (none, a)
      | (some out, a) =>
        (t.treeRangeQueryNode cmp low high fuel t.root (out, a)).map fun r => (some r.1, r.2)
  | _, _ => some (none, a)

/-! ## What the nodes spell out

Both kinds of tree are read through this relation, and nothing below it knows which one it is. -/

/-- The nodes from a pointer on spell out a tree of bindings. -/
def Spells : BinaryTree (κ × Option υ) → ν → Prop
  | .nil, n => t.node n = none
  | .node e l r, n => ∃ fields, t.node n = some fields ∧ (fields.key, fields.value) = e ∧
      Spells l (fields.child .left) ∧ Spells r (fields.child .right)

end

variable {t : TreeImpl κ υ ν} {T : BinaryTree (κ × Option υ)} {n : ν} {cmp : κ → κ → ℤ}

theorem valueOf_nil : t.valueOf t.nil = none := by
  rw [valueOf, t.node_nil]
  rfl

namespace Spells

theorem branch {side : Side} {e : κ × Option υ} {near far : BinaryTree (κ × Option υ)}
    (hT : t.Spells (branch side e near far) n) :
    ∃ fields, t.node n = some fields ∧ (fields.key, fields.value) = e ∧
      t.Spells near (fields.child side) ∧ t.Spells far (fields.child side.opp) := by
  cases side with
  | left => exact hT
  | right =>
    obtain ⟨fields, hnode, he, hfar, hnear⟩ : t.Spells (.node e far near) n := hT
    exact ⟨fields, hnode, he, hnear, hfar⟩

/-! ## The nearest entries -/

/-- **The last node on a side** is the first entry read from that side. -/
theorem treeEndNode (side : Side) (hT : t.Spells T n) {fuel : ℕ} (hfuel : T.height < fuel) :
    ∃ m, t.treeEndNode side fuel n = some m ∧
      t.valueOf m = ((labelsFrom side T).find? fun _ => true).bind Prod.snd := by
  induction T using branch_induction side generalizing n fuel with
  | nil =>
    obtain ⟨fuel, rfl⟩ : ∃ k, fuel = k + 1 := ⟨fuel - 1, by omega⟩
    have hnode : t.node n = none := hT
    refine ⟨t.nil, by rw [TreeImpl.treeEndNode, hnode], ?_⟩
    rw [valueOf_nil, labelsFrom_nil]
    rfl
  | branch e near far ihn ihf =>
    obtain ⟨fuel, rfl⟩ : ∃ k, fuel = k + 1 := ⟨fuel - 1, by omega⟩
    rw [height_branch] at hfuel
    obtain ⟨fields, hnode, rfl, hnear, -⟩ := hT.branch
    rw [TreeImpl.treeEndNode, hnode, labelsFrom_branch]
    dsimp only
    rcases eq_nil_or_branch side near with rfl | ⟨e', near', far', rfl⟩
    · have hchild : t.node (fields.child side) = none := hnear
      rw [hchild]
      refine ⟨n, rfl, ?_⟩
      rw [valueOf, hnode, labelsFrom_nil]
      rfl
    · obtain ⟨fields', hchild, -⟩ := hnear.branch
      rw [hchild]
      obtain ⟨m, hend, hvalue⟩ := ihn hnear (show _ < fuel by omega)
      refine ⟨m, hend, ?_⟩
      rw [hvalue, labelsFrom_branch]
      simp [List.find?_append]

/-- **The best node of the descent** is the first entry, read from the other side, that is not
skipped. Everything read before an entry that is skipped is skipped too. -/
theorem treeNearest (side : Side) (skip : ℤ → Prop) [DecidablePred skip] (key : κ)
    (hT : t.Spells T n) (hskip : (labelsFrom side.opp T).Pairwise fun p q =>
      skip (cmp key q.1) → skip (cmp key p.1)) {fuel : ℕ} (hfuel : T.height < fuel) (best : ν) :
    ∃ m, t.treeNearest cmp side skip key fuel n best = some m ∧ t.valueOf m =
      ((labelsFrom side.opp T).find? fun p => ¬skip (cmp key p.1)).elim (t.valueOf best)
        Prod.snd := by
  induction T using branch_induction side generalizing n fuel best with
  | nil =>
    obtain ⟨fuel, rfl⟩ : ∃ k, fuel = k + 1 := ⟨fuel - 1, by omega⟩
    have hnode : t.node n = none := hT
    refine ⟨best, by rw [TreeImpl.treeNearest, hnode], ?_⟩
    rw [labelsFrom_nil]
    rfl
  | branch e near far ihn ihf =>
    obtain ⟨fuel, rfl⟩ : ∃ k, fuel = k + 1 := ⟨fuel - 1, by omega⟩
    rw [height_branch] at hfuel
    obtain ⟨fields, hnode, rfl, hnear, hfar⟩ := hT.branch
    rw [← branch_opp, labelsFrom_branch] at hskip ⊢
    obtain ⟨hskipf, hskipn, hbefore⟩ := List.pairwise_append.mp hskip
    rw [TreeImpl.treeNearest, hnode, List.find?_append]
    dsimp only
    split
    · next hkey =>
      obtain ⟨m, hrun, hvalue⟩ := ihn hnear (List.pairwise_cons.mp hskipn).2
        (show near.height < fuel by omega) best
      have hnone : ((labelsFrom side.opp far).find? fun p => ¬skip (cmp key p.1)) = none :=
        List.find?_eq_none.mpr fun p hp => by
          simpa using hbefore p hp _ List.mem_cons_self hkey
      refine ⟨m, hrun, ?_⟩
      rw [hvalue, hnone, Option.none_or, List.find?_cons_of_neg (by simpa using hkey)]
    · next hkey =>
      obtain ⟨m, hrun, hvalue⟩ := ihf hfar hskipf (show far.height < fuel by omega) n
      refine ⟨m, hrun, ?_⟩
      rw [hvalue, List.find?_cons_of_pos (by simpa using hkey), valueOf, hnode]
      cases (labelsFrom side.opp far).find? fun p => ¬skip (cmp key p.1) <;> rfl

/-! ## Many entries -/

/-- **A traversal** calls back for each entry in order. -/
theorem treeInOrderNode (callback : σ → κ → Option υ → σ) (hT : t.Spells T n) {fuel : ℕ}
    (hfuel : T.height < fuel) (s : σ) :
    t.treeInOrderNode callback fuel n s =
      some ((inorder T).foldl (fun s p => callback s p.1 p.2) s) := by
  induction T generalizing n fuel s with
  | nil =>
    obtain ⟨fuel, rfl⟩ : ∃ k, fuel = k + 1 := ⟨fuel - 1, by omega⟩
    have hnode : t.node n = none := hT
    rw [TreeImpl.treeInOrderNode, hnode]
    rfl
  | node e l r ihl ihr =>
    obtain ⟨fuel, rfl⟩ : ∃ k, fuel = k + 1 := ⟨fuel - 1, by omega⟩
    rw [BinaryTree.height] at hfuel
    obtain ⟨fields, hnode, rfl, hl, hr⟩ := hT
    rw [TreeImpl.treeInOrderNode, hnode]
    dsimp only
    rw [ihl hl (show l.height < fuel by omega), Option.bind_eq_bind, Option.bind_some,
      ihr hr (show r.height < fuel by omega), inorder, List.foldl_append, List.foldl_cons]

/-- **The pruned recursion** appends the values in the range, in order. It leaves out a side only
when nothing there is in the range. -/
theorem treeRangeQueryNode (h : IsComparator cmp) (low high : κ) (hT : t.Spells T n)
    (hs : KeysAscend cmp (inorder T)) {fuel : ℕ} (hfuel : T.height < fuel)
    (out : ArrayList (Option υ) × Allocator) :
    t.treeRangeQueryNode cmp low high fuel n out =
      some (((entriesIn cmp low high (inorder T)).map Prod.snd).foldl
        (fun out item => (out.1.insert item out.1.size out.2).2) out) := by
  induction T generalizing n fuel out with
  | nil =>
    obtain ⟨fuel, rfl⟩ : ∃ k, fuel = k + 1 := ⟨fuel - 1, by omega⟩
    have hnode : t.node n = none := hT
    rw [TreeImpl.treeRangeQueryNode, hnode]
    rfl
  | node e l r ihl ihr =>
    obtain ⟨fuel, rfl⟩ : ∃ k, fuel = k + 1 := ⟨fuel - 1, by omega⟩
    rw [BinaryTree.height] at hfuel
    obtain ⟨fields, hnode, rfl, hl, hr⟩ := hT
    rw [inorder] at hs ⊢
    obtain ⟨hsl, hsr, -⟩ := KeysAscend.append_cons_iff.mp hs
    rw [TreeImpl.treeRangeQueryNode, hnode, entriesIn_append_cons, List.map_append, List.map_append,
      List.foldl_append, List.foldl_append]
    dsimp only
    have hleft : (if 0 < cmp fields.key low then
        t.treeRangeQueryNode cmp low high fuel (fields.child .left) out else some out) =
        some (((entriesIn cmp low high (inorder l)).map Prod.snd).foldl
          (fun out item => (out.1.insert item out.1.size out.2).2) out) := by
      split
      · exact ihl hl hsl (show l.height < fuel by omega) out
      · next hlow =>
        rw [hs.entriesIn_left h high (not_lt.mp hlow)]
        rfl
    have hright : ∀ out, (if cmp fields.key high < 0 then
        t.treeRangeQueryNode cmp low high fuel (fields.child .right) out else some out) =
        some (((entriesIn cmp low high (inorder r)).map Prod.snd).foldl
          (fun out item => (out.1.insert item out.1.size out.2).2) out) := by
      intro out
      split
      · exact ihr hr hsr (show r.height < fuel by omega) out
      · next hhigh =>
        rw [hs.entriesIn_right h low (not_lt.mp hhigh)]
        rfl
    rw [hleft, Option.bind_eq_bind, Option.bind_some, hright]
    rw [entriesIn_singleton h]
    congr 2
    split <;> rfl

end Spells

/-! ## The answers -/

/-- What the queries answer about a tree with the bindings `l`. -/
structure Answers (σ : Type*) (cmp : κ → κ → ℤ) (t : TreeImpl κ υ ν) (fuel : ℕ)
    (l : List (κ × Option υ)) : Prop where
  min : ∃ e, IsLeastEntry cmp (fun _ => True) l e ∧
    t.treeMinMethod fuel = some (e.bind Prod.snd)
  max : ∃ e, IsGreatestEntry cmp (fun _ => True) l e ∧
    t.treeMaxMethod fuel = some (e.bind Prod.snd)
  predecessor : ∀ key, ∃ e, IsGreatestEntry cmp (fun k => cmp k key < 0) l e ∧
    t.treePredecessorMethod cmp fuel (some key) = some (e.bind Prod.snd)
  successor : ∀ key, ∃ e, IsLeastEntry cmp (fun k => cmp key k < 0) l e ∧
    t.treeSuccessorMethod cmp fuel (some key) = some (e.bind Prod.snd)
  rangeQuery : ∀ low high, cmp low high ≤ 0 → (entriesIn cmp low high l).length ≤ intMax →
    ∃ out, t.treeRangeQueryMethod cmp fuel .always (some low) (some high) =
        some (some out, .always) ∧
      out.items = (entriesIn cmp low high l).map Prod.snd
  /-- The list has slots for all the values of a small tree from the start. -/
  rangeQuery_small : ∀ a low high, cmp low high ≤ 0 → l.length < 1024 * 1024 →
    (∃ a', t.treeRangeQueryMethod cmp fuel a (some low) (some high) = some (none, a')) ∨
      ∃ out a', t.treeRangeQueryMethod cmp fuel a (some low) (some high) =
          some (some out, a') ∧
        out.items = (entriesIn cmp low high l).map Prod.snd
  traverse : ∀ (callback : σ → κ → Option υ → σ) (s : σ),
    t.treeInOrderTraverseMethod fuel callback s =
      some (l.foldl (fun s p => callback s p.1 p.2) s)

theorem rangeCapacity_pos (t : TreeImpl κ υ ν) : 0 < t.rangeCapacity := by
  rw [rangeCapacity]
  split <;> omega

theorem rangeCapacity_le (t : TreeImpl κ υ ν) : t.rangeCapacity ≤ intMax := by
  rw [rangeCapacity, intMax]
  split <;> omega

namespace Spells

/-- The value of the last node on a side is that of the first entry read from that side. -/
theorem endValue (side : Side) (hT : t.Spells T t.root) {fuel : ℕ} (hfuel : T.height < fuel) :
    (t.treeEndNode side fuel t.root).map t.valueOf =
      some (((labelsFrom side T).find? fun _ => true).bind Prod.snd) := by
  obtain ⟨m, hend, hvalue⟩ := hT.treeEndNode side hfuel
  rw [hend, Option.map_some, hvalue]

/-- The value of the first entry, read from the other side, that the descent does not skip. -/
theorem nearest (side : Side) (skip : ℤ → Prop) [DecidablePred skip] (key : κ)
    (hT : t.Spells T t.root) (hskip : (labelsFrom side.opp T).Pairwise fun p q =>
      skip (cmp key q.1) → skip (cmp key p.1)) {fuel : ℕ} (hfuel : T.height < fuel) :
    (t.treeNearest cmp side skip key fuel t.root t.nil).map t.valueOf =
      some (((labelsFrom side.opp T).find? fun p => ¬skip (cmp key p.1)).bind Prod.snd) := by
  obtain ⟨m, hrun, hvalue⟩ := hT.treeNearest side skip key hskip hfuel t.nil
  rw [hrun, Option.map_some, hvalue, valueOf_nil]
  cases (labelsFrom side.opp T).find? fun p => ¬skip (cmp key p.1) <;> rfl

section

variable (h : IsComparator cmp) (hT : t.Spells T t.root) (hs : KeysAscend cmp (inorder T))
  {fuel : ℕ} (hfuel : T.height < fuel)
include h hT hs hfuel

theorem predecessor (key : κ) :
    ∃ e, IsGreatestEntry cmp (fun k => cmp k key < 0) (inorder T) e ∧
      t.treePredecessorMethod cmp fuel (some key) = some (e.bind Prod.snd) := by
  have hskip : (labelsFrom Side.left.opp T).Pairwise fun p q =>
      cmp key q.1 ≤ 0 → cmp key p.1 ≤ 0 :=
    List.pairwise_reverse.mpr (hs.imp fun hlt hle => (h.lt_of_le_of_lt hle hlt).le)
  have hbelow : (fun k => cmp k key < 0) = fun k => ¬cmp key k ≤ 0 :=
    funext fun k => propext ((h.neg_iff k key).trans not_le.symm)
  rw [hbelow]
  exact ⟨_, hs.isGreatestEntry h _, hT.nearest .left (· ≤ 0) key hskip hfuel⟩

theorem successor (key : κ) :
    ∃ e, IsLeastEntry cmp (fun k => cmp key k < 0) (inorder T) e ∧
      t.treeSuccessorMethod cmp fuel (some key) = some (e.bind Prod.snd) := by
  have hskip : (labelsFrom Side.right.opp T).Pairwise fun p q =>
      0 ≤ cmp key q.1 → 0 ≤ cmp key p.1 :=
    hs.imp fun hlt hge => h.nonneg_of_le (h.lt_of_lt_of_le hlt (h.le_of_nonneg hge)).le
  have habove : (fun k => cmp key k < 0) = fun k => ¬0 ≤ cmp key k :=
    funext fun k => propext not_le.symm
  rw [habove]
  exact ⟨_, hs.isLeastEntry h _, hT.nearest .right (0 ≤ ·) key hskip hfuel⟩

/-- A range query whose list has been created, with room for what it appends. -/
theorem rangeQuery {low high : κ} (hle : cmp low high ≤ 0) {a a' : Allocator}
    {out : ArrayList (Option υ)} (hcreate : ArrayList.create t.rangeCapacity a = (some out, a'))
    (hroom : out.HasRoomFor (entriesIn cmp low high (inorder T)).length a') :
    ∃ out, t.treeRangeQueryMethod cmp fuel a (some low) (some high) = some (some out, a') ∧
      out.items = (entriesIn cmp low high (inorder T)).map Prod.snd := by
  rw [← List.length_map Prod.snd] at hroom
  obtain ⟨out', happend, hitems⟩ := hroom.appendAll
  have hempty : out.items = [] := ArrayList.items_of_create (congrArg Prod.fst hcreate)
  refine ⟨out', ?_, by rw [hitems, hempty, List.nil_append]⟩
  rw [treeRangeQueryMethod, if_neg (not_lt.mpr hle), hcreate]
  dsimp only
  rw [hT.treeRangeQueryNode h low high hs hfuel, happend, Option.map_some]

theorem rangeQuery_always {low high : κ} (hle : cmp low high ≤ 0)
    (hmax : (entriesIn cmp low high (inorder T)).length ≤ intMax) :
    ∃ out, t.treeRangeQueryMethod cmp fuel .always (some low) (some high) =
        some (some out, .always) ∧
      out.items = (entriesIn cmp low high (inorder T)).map Prod.snd := by
  refine hT.rangeQuery h hs hfuel hle
    (ArrayList.create_always t.rangeCapacity_pos.le t.rangeCapacity_le) (.inr ⟨rfl, ?_, ?_⟩)
  · exact Int.pos_iff_toNat_pos.mp t.rangeCapacity_pos
  · rwa [List.length_nil, Nat.zero_add]

/-- In a small tree the capacity is the size of the tree, so the list need not grow. -/
theorem rangeQuery_small (hsize : t.size = (inorder T).length)
    (hsmall : (inorder T).length < 1024 * 1024) (a : Allocator) {low high : κ}
    (hle : cmp low high ≤ 0) :
    (∃ a', t.treeRangeQueryMethod cmp fuel a (some low) (some high) = some (none, a')) ∨
      ∃ out a', t.treeRangeQueryMethod cmp fuel a (some low) (some high) = some (some out, a') ∧
        out.items = (entriesIn cmp low high (inorder T)).map Prod.snd := by
  rcases hcreate : ArrayList.create t.rangeCapacity a with ⟨_ | out, a'⟩
  · refine .inl ⟨a', ?_⟩
    rw [treeRangeQueryMethod, if_neg (not_lt.mpr hle), hcreate]
  · have hcap := ArrayList.capacity_of_create hcreate
    have hempty : out.items = [] := ArrayList.items_of_create (congrArg Prod.fst hcreate)
    have hlength : (entriesIn cmp low high (inorder T)).length ≤ (inorder T).length :=
      List.length_filter_le _ _
    have hslots : out.items.length + (entriesIn cmp low high (inorder T)).length ≤
        out.capacity := by
      rw [hempty, List.length_nil]
      rw [rangeCapacity] at hcap
      split at hcap <;> omega
    obtain ⟨out', hquery, hitems⟩ := hT.rangeQuery h hs hfuel hle hcreate (.inl hslots)
    exact .inr ⟨out', a', hquery, hitems⟩

end

/-- **The answers of a sorted tree.** -/
theorem answers (h : IsComparator cmp) (hT : t.Spells T t.root) (hs : KeysAscend cmp (inorder T))
    (hsize : t.size = (inorder T).length) {fuel : ℕ} (hfuel : (inorder T).length < fuel) :
    t.Answers σ cmp fuel (inorder T) where
  min := ⟨_, hs.isLeastEntry h fun _ => True, hT.endValue .left (height_lt hfuel)⟩
  max := ⟨_, hs.isGreatestEntry h fun _ => True, hT.endValue .right (height_lt hfuel)⟩
  predecessor := hT.predecessor h hs (height_lt hfuel)
  successor := hT.successor h hs (height_lt hfuel)
  rangeQuery _ _ := hT.rangeQuery_always h hs (height_lt hfuel)
  rangeQuery_small a _ _ hle hsmall :=
    hT.rangeQuery_small h hs (height_lt hfuel) hsize hsmall a hle
  traverse callback := hT.treeInOrderNode callback (height_lt hfuel)

end Spells

end TreeImpl

/-! ## The two kinds of tree

A red-black tree spells out its bindings by its links, and an AVL tree is its own value. -/

/-- The binding of a node. -/
def NodeData.binding (d : NodeData κ υ) : κ × Option υ := (d.key, d.value)

/-- The binding of a node. -/
def RbTree.binding (t : RbTree κ υ) (a : Addr) : κ × Option υ := (t.key a, t.value a)

theorem AvlTree.spells (t : AvlTree κ υ) (n : AvlNode κ υ) :
    t.impl.Spells (n.map NodeData.binding) n := by
  induction n with
  | nil => rfl
  | node d l r ihl ihr => exact ⟨_, rfl, rfl, ihl, ihr⟩

theorem inorder_map_binding (n : AvlNode κ υ) : inorder (n.map NodeData.binding) = bindings n := by
  rw [inorder_map, bindings, entries, List.map_map]
  rfl

theorem Linked.spells {t : RbTree κ υ} {T : BinaryTree Addr} {p par : Addr}
    (h : Linked t.child t.parent T p par) : t.impl.Spells (T.map t.binding) p := by
  induction T generalizing p par with
  | nil => exact if_pos h
  | node a l r ihl ihr =>
    obtain ⟨rfl, hne, -, hl, hr⟩ := h
    exact ⟨_, if_neg hne, rfl, ihl hl, ihr hr⟩

/-- The traversal is the one of the red-black tree's own fields. -/
theorem RbTree.impl_treeInOrderNode (t : RbTree κ υ) (callback : σ → κ → Option υ → σ) (fuel : ℕ)
    (node : Addr) (s : σ) :
    t.impl.treeInOrderNode callback fuel node s = treeInOrderNode t callback fuel node s := by
  induction fuel generalizing node s with
  | zero => rfl
  | succ fuel ih =>
    rw [TreeImpl.treeInOrderNode, treeInOrderNode]
    split_ifs with hnil
    · rw [show t.impl.node node = none from if_pos hnil]
    · rw [show t.impl.node node = some _ from if_neg hnil]
      simp only [ih]

variable {cmp : κ → κ → ℤ} {h : IsComparator cmp}

theorem AvlRepresents.answers {t : AvlTree κ υ} {M : KeyMap h υ} (ht : AvlRepresents h t M)
    {fuel : ℕ} (hfuel : (bindings t.root).length < fuel) :
    t.impl.Answers σ cmp fuel (bindings t.root) := by
  have hspells := t.spells t.root
  have hascend := ht.ascending
  have hsize : t.size = (bindings t.root).length := by rw [length_bindings, ht.size]
  rw [← inorder_map_binding] at hascend hsize hfuel ⊢
  exact hspells.answers h hascend hsize hfuel

theorem Represents.answers {t : RbTree κ υ} {T : BinaryTree Addr} {M : KeyMap h υ}
    (ht : Represents h t (inorder T) M) (hT : RedBlackTree cmp t T) {fuel : ℕ}
    (hfuel : (inorder T).length < fuel) :
    t.impl.Answers σ cmp fuel ((inorder T).map t.binding) := by
  have hspells : t.impl.Spells (T.map t.binding) t.root := hT.linked.spells
  have hascend : KeysAscend cmp ((inorder T).map t.binding) :=
    List.pairwise_map.mpr hT.ascending
  have hlength : ((inorder T).map t.binding).length = (inorder T).length := List.length_map _
  rw [← hlength] at hfuel
  rw [← inorder_map] at hascend hfuel hlength ⊢
  exact hspells.answers h hascend (ht.size.trans hlength.symm) hfuel

/-- **The queries of a tree**, of either kind, after any run and with any of its allocations
failing: each answers as it should about the bindings in the tree. -/
theorem tree_queries [Inhabited κ] (h : IsComparator cmp) (calls : List (Call κ υ)) (a₀ : Allocator)
    {fuel : ℕ} (hfuel : calls.length < fuel) :
    (∃ t : AvlTree κ υ, ∃ a₁, calls.foldl (avlCall cmp) (createAvlTree, a₀) = (t, a₁) ∧
      KeysAscend cmp (bindings t.root) ∧
        ∀ fuel, (bindings t.root).length < fuel →
          t.impl.Answers σ cmp fuel (bindings t.root)) ∧
    ∃ t : RbTree κ υ, ∃ a₁ T, calls.foldlM (rbCall cmp fuel) (createRbTree, a₀) = some (t, a₁) ∧
      RedBlackTree cmp t T ∧ KeysAscend cmp ((inorder T).map t.binding) ∧
        ∀ fuel, (inorder T).length < fuel →
          t.impl.Answers σ cmp fuel ((inorder T).map t.binding) := by
  constructor
  · obtain ⟨M, ht⟩ := avlCalls_represents (s := (createAvlTree, a₀)) calls
      ⟨_, avlRepresents_createAvlTree (υ := υ) h⟩
    exact ⟨_, _, rfl, ht.ascending, fun fuel hfuel => ht.answers hfuel⟩
  · obtain ⟨⟨t, a₁⟩, l, M, hrun, ht, -⟩ := rbCalls_represents (s := (createRbTree, a₀)) calls
      (represents_createRbTree h) (show [].length + calls.length < fuel by simpa using hfuel)
    obtain ⟨T, hT, rfl⟩ := ht.redBlackTree
    exact ⟨t, a₁, T, hrun, hT, List.pairwise_map.mpr hT.ascending,
      fun fuel hfuel => ht.answers hT hfuel⟩

/-- Three keys, one of them overwritten, in trees of both kinds. -/
theorem tree_queries_three :
    let calls : List (Call ℤ ℕ) :=
      [.insert 2 (some 20), .insert 1 (some 10), .insert 3 (some 30), .insert 2 (some 21)]
    let l : List (ℤ × Option ℕ) := [(1, some 10), (2, some 21), (3, some 30)]
    (∃ t a₁, calls.foldl (avlCall fun x y => x - y) (createAvlTree, .always) = (t, a₁) ∧
      t.impl.Answers ℕ (fun x y => x - y) 4 l) ∧
    ∃ t a₁, calls.foldlM (rbCall (fun x y => x - y) 5) (createRbTree, .always) = some (t, a₁) ∧
      t.impl.Answers ℕ (fun x y => x - y) 4 l := by
  intro calls l
  obtain ⟨⟨t, a₁, hrun, -, hanswers⟩, t', a₁', T, hrun', hT, -, hanswers'⟩ :=
    tree_queries (σ := ℕ) subtract_isComparator calls .always (show 4 < 5 by decide)
  -- the keys were put at the addresses 1 to 3
  obtain ⟨hlinked, hbindings⟩ : Linked t'.child t'.parent
      (.node 1 (.node 2 .nil .nil) (.node 3 .nil .nil)) t'.root nil ∧
      [2, 1, 3].map t'.binding = l := by
    cases hrun'
    exact ⟨⟨rfl, by decide, rfl, ⟨rfl, by decide, rfl, rfl, rfl⟩, rfl, by decide, rfl, rfl, rfl⟩,
      rfl⟩
  obtain rfl := hT.linked.unique hlinked
  obtain rfl := (Prod.mk.inj hrun).1
  exact ⟨⟨_, _, rfl, hanswers 4 (by decide)⟩, t', a₁', hrun', hbindings ▸ hanswers' 4 (by decide)⟩

/-- A range query that cannot have its list returns `NULL`, though the key is there. -/
theorem tree_rangeQuery_refused :
    let t : AvlTree ℤ ℕ :=
      (avlInsertMethod (fun x y => x - y) .always createAvlTree (some 1) (some 5)).1
    bindings t.root = [(1, some 5)] ∧
      (t.impl.treeRangeQueryMethod (fun x y => x - y) 8 ⟨fun _ => false⟩ (some 0) (some 2)).map
        Prod.fst = some none ∧
      ¬∃ out a', t.impl.treeRangeQueryMethod (fun x y => x - y) 8 ⟨fun _ => false⟩ (some 0)
          (some 2) = some (some out, a') ∧ out.items = [some 5] := by
  refine ⟨rfl, rfl, ?_⟩
  rintro ⟨out, a', hquery, -⟩
  have hnone := congrArg (Option.map Prod.fst) hquery
  exact absurd hnone nofun

end Tree

end OvaLib
