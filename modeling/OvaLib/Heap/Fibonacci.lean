import Mathlib.Data.Int.Notation
import OvaLib.Foundation.Ring
import OvaLib.Types

/-!
# The Fibonacci heap

`fibonacci_heap.c`. Nodes live at addresses, and each field of `fib_node` is a function of the
address. Handles are addresses. The pointer fields, the degree and the mark come first, as
`FibNodes`; `cut` and `fib_node_link` read nothing else.

The comparator is handed `void *` pointers, so it compares options. A loop that follows links takes
fuel and returns `none` when that runs out; `none` also stands for reading through `NULL`. Addresses
are handed out in ascending order and never again, so `free` needs no counterpart.

## The contract

The interface is that of `heap.h`, with handles: `put_with_handle` returns the node of the payload,
and `decrease_key` and `delete_node` take such a node. They require that the node is still in the
heap and, for `decrease_key`, that the new payload does not compare above the old one; neither is
checked. The minimum for the comparator is on top, so here a heap is a minimum heap.

## Pointers

Siblings form a ring through their left and right fields. The roots are such a ring, with `h->min`
for its head, and the children of a node are one, with the child field for its head. An assignment
through a pointer is an update of one function at one address, and a statement that reads what the
statement before it has written is modelled in that order: `spliceOut` and `spliceIn` have two and
four assignments, and two nodes of a small ring may be one node.

## What is deliberately absent

There is no well-formedness condition on the nodes. The functions are total on any memory, and what
a memory has to look like for them to be right is an invariant about which they know nothing. The
payload is not part of `FibNodes`, since cutting and linking do not read it; a lemma about either is
a lemma about links.

## Main definitions

* `FibNodes.fibNodeLink`, `FibNodes.cut`, `FibNodes.cascadingCut` — the moves between rings
* `FibNodes.consolidate` — the three loops of `consolidate`
* `fibonacciHeapPut`, `fibonacciHeapPop`, `fibonacciHeapDecreaseKey`, `fibonacciHeapDelete` — the
  methods
-/

namespace OvaLib

namespace Heap

open Foundation (Dll)

/-- An address. -/
abbrev Addr := ℕ

/-- The fields of the nodes other than the payload. -/
structure FibNodes extends Dll Addr where
  /-- `NULL` for a root. -/
  parent : Addr → Option Addr
  /-- One of the children, the head of their ring. -/
  child : Addr → Option Addr
  /-- How many children there are. -/
  degree : Addr → ℕ
  /-- Set when a node that is no root loses a child; cleared by a link and by a cut. -/
  mark : Addr → Bool

/-- `fibonacci_heap` with the nodes it owns; `fresh` is the next address. -/
structure FibHeap (α : Type*) extends FibNodes where
  /-- The payloads. -/
  data : Addr → Option α
  /-- One of the roots, the head of their ring. -/
  min : Option Addr
  n : ℕ
  fresh : Addr

namespace FibNodes

/-- Assign a left field. -/
def setLeft (m : FibNodes) (a v : Addr) : FibNodes := { m with toDll := m.toDll.setLeft a v }

/-- Assign a right field. -/
def setRight (m : FibNodes) (a v : Addr) : FibNodes := { m with toDll := m.toDll.setRight a v }

/-- Assign a parent field. -/
def setParent (m : FibNodes) (a : Addr) (v : Option Addr) : FibNodes :=
  { m with parent := Function.update m.parent a v }

/-- Assign a child field. -/
def setChild (m : FibNodes) (a : Addr) (v : Option Addr) : FibNodes :=
  { m with child := Function.update m.child a v }

/-- Assign a degree field. -/
def setDegree (m : FibNodes) (a : Addr) (v : ℕ) : FibNodes :=
  { m with degree := Function.update m.degree a v }

/-- Assign a mark field. -/
def setMark (m : FibNodes) (a : Addr) (v : Bool) : FibNodes :=
  { m with mark := Function.update m.mark a v }

/-! ## Links

In the order of the assignments, each of which sees the ones before it. -/

/-- `x->left->right = x->right; x->right->left = x->left;` -/
def spliceOut (m : FibNodes) (x : Addr) : FibNodes :=
  let m := m.setRight (m.left x) (m.right x)
  m.setLeft (m.right x) (m.left x)

/-- `x->left = c; x->right = c->right; c->right->left = x; c->right = x;` -/
def spliceIn (m : FibNodes) (c x : Addr) : FibNodes :=
  let m := m.setLeft x c
  let m := m.setRight x (m.right c)
  let m := m.setLeft (m.right c) x
  m.setRight c x

/-- `fib_node_link`. -/
def fibNodeLink (m : FibNodes) (child parent : Addr) : FibNodes :=
  let m := m.spliceOut child
  let m := m.setParent child (some parent)
  let m := m.setRight child child
  let m := m.setLeft child (m.right child)
  let m :=
    match m.child parent with
    | none => m.setChild parent (some child)
    | some c =>
      let m := m.setRight child c
      let m := m.setLeft child (m.left c)
      let m := m.setRight (m.left c) child
      m.setLeft c child
  let m := m.setDegree parent (m.degree parent + 1)
  m.setMark child false

/-- `cut`; `min` is `h->min`. -/
def cut (min : Addr) (m : FibNodes) (x y : Addr) : FibNodes :=
  let m :=
    if m.right x = x then m.setChild y none
    else
      let m := m.spliceOut x
      if m.child y = some x then m.setChild y (some (m.right x)) else m
  let m := m.setDegree y (m.degree y - 1)
  let m := m.spliceIn min x
  let m := m.setParent x none
  m.setMark x false

/-- `cascading_cut`. -/
def cascadingCut (min : Addr) : ℕ → FibNodes → Addr → Option FibNodes
  | 0, _, _ => none
  | fuel + 1, m, y =>
    match m.parent y with
    | none => some m
    | some z =>
      if m.mark y = false then some (m.setMark y true)
      else cascadingCut min fuel (m.cut min y z) z

/-! ## Consolidation

The table `A` has `D` entries. A root whose degree has come to `D` has no entry and is put nowhere,
as in the source; that no heap has such a root is a theorem and not an assumption. -/

/-- The bound `D` of `consolidate`. -/
def maxDegree : ℕ := 45

/-- The first loop of `consolidate`: the number of roots from `w` on. -/
def countRoots (m : FibNodes) (start : Addr) : ℕ → Addr → Option ℕ
  | 0, _ => none
  | fuel + 1, w =>
    if m.right w = start then some 1
    else (countRoots m start fuel (m.right w)).map (· + 1)

section

variable {α : Type*} (cmp : Option α → Option α → ℤ) (data : Addr → Option α)

/-- The inner loop of `consolidate`. The first argument is `D - d`; the results are the nodes,
`A`, `x` and `d` at its end. -/
def mergeRoots : ℕ → FibNodes → (ℕ → Option Addr) → Addr →
    FibNodes × (ℕ → Option Addr) × Addr × ℕ
  | 0, m, A, x => (m, A, x, maxDegree)
  | left + 1, m, A, x =>
    let d := maxDegree - (left + 1)
    match A d with
    | none => (m, A, x, d)
    | some y =>
      if data y = none then (m, Function.update A d none, x, d)
      else
        let (x, y) := if cmp (data x) (data y) > 0 then (y, x) else (x, y)
        mergeRoots left (m.fibNodeLink y x) (Function.update A d none) x

/-- The second loop of `consolidate`, from `w` on. The first argument is `roots`. -/
def consolidateRoots : ℕ → FibNodes → (ℕ → Option Addr) → Addr → FibNodes × (ℕ → Option Addr)
  | 0, m, A, _ => (m, A)
  | roots + 1, m, A, w =>
    let x := w
    let w := m.right w
    if data x = none then consolidateRoots roots m A w
    else
      let (m, A, x, d) := mergeRoots cmp data (maxDegree - m.degree x) m A x
      let A := if d < maxDegree then Function.update A d (some x) else A
      consolidateRoots roots m A w

/-- One turn of the last loop of `consolidate`: `A[i]` joins the root list. -/
def collectRoot (A : ℕ → Option Addr) (s : FibNodes × Option Addr) (i : ℕ) :
    FibNodes × Option Addr :=
  match A i with
  | none => s
  | some a =>
    let m := s.1.setRight a a
    let m := m.setLeft a (m.right a)
    match s.2 with
    | none => (m, some a)
    | some min => (m.spliceIn min a, if cmp (data a) (data min) < 0 then some a else some min)

/-- `consolidate`: the nodes and `h->min` after it. -/
def consolidate (fuel : ℕ) (m : FibNodes) (min : Option Addr) : Option (FibNodes × Option Addr) :=
  match min with
  | none => some (m, none)
  | some start =>
    (m.countRoots start fuel start).map fun roots =>
      let (m, A) := consolidateRoots cmp data roots m (fun _ => none) start
      (List.range maxDegree).foldl (collectRoot cmp data A) (m, none)

end

/-! ## Promotion of children

The loop ends when the next node is the child it started with. Since the nodes it moves go to
another ring, where it ends has to be found out. -/

/-- The loop of `fibonacci_heap_pop` over the children of `z`, from `x` on. -/
def promoteChildren (z start : Addr) : ℕ → FibNodes → Addr → Option FibNodes
  | 0, _, _ => none
  | fuel + 1, m, x =>
    let next := m.right x
    let m := m.spliceOut x
    let m := m.spliceIn z x
    let m := m.setParent x none
    if next = start then some m else promoteChildren z start fuel m next

/-- The part of `fibonacci_heap_pop` up to `z->child = NULL`. -/
def promote (m : FibNodes) (z : Addr) (fuel : ℕ) : Option FibNodes :=
  match m.child z with
  | none => some m
  | some start => (m.promoteChildren z start fuel start).map fun m => m.setChild z none

end FibNodes

/-! ## The methods -/

variable {α : Type*}

/-- What `create_fibonacci_heap` returns. -/
def createFibonacciHeap : FibHeap α where
  left := fun a => a
  right := fun a => a
  parent := fun _ => none
  child := fun _ => none
  degree := fun _ => 0
  mark := fun _ => false
  data := fun _ => none
  min := none
  n := 0
  fresh := 0

section

variable (cmp : Option α → Option α → ℤ)

/-- `fib_node_create`, at the next address. -/
def fibNodeCreate (h : FibHeap α) (data : Option α) : FibHeap α :=
  let node := h.fresh
  let m := h.toFibNodes
  let m := m.setDegree node 0
  let m := m.setParent node none
  let m := m.setChild node none
  let m := m.setLeft node node
  let m := m.setRight node node
  let m := m.setMark node false
  { h with toFibNodes := m, data := Function.update h.data node data, fresh := h.fresh + 1 }

/-- What `fibonacci_heap_put` and `fibonacci_heap_put_with_handle` do with the new node. -/
def fibonacciHeapInsert (h : FibHeap α) (node : Addr) : FibHeap α :=
  match h.min with
  | none => { h with min := some node, n := h.n + 1 }
  | some min =>
    let m := h.toFibNodes
    let m := m.setRight node (m.right min)
    let m := m.setLeft (m.right node) node
    let m := m.setLeft node min
    let m := m.setRight min node
    { h with
      toFibNodes := m
      min := if cmp (h.data node) (h.data min) < 0 then some node else some min
      n := h.n + 1 }

/-- `fibonacci_heap_put`. -/
def fibonacciHeapPut (a : Allocator) (h : FibHeap α) (data : Option α) :
    FibHeap α × ErrorCode × Allocator :=
  match a.alloc with
  | (false, a) => (h, .errorMemory, a)
  | (true, a) => (fibonacciHeapInsert cmp (fibNodeCreate h data) h.fresh, .success, a)

/-- `fibonacci_heap_put_with_handle`. -/
def fibonacciHeapPutWithHandle (a : Allocator) (h : FibHeap α) (data : Option α) :
    FibHeap α × Option Addr × Allocator :=
  match a.alloc with
  | (false, a) => (h, none, a)
  | (true, a) => (fibonacciHeapInsert cmp (fibNodeCreate h data) h.fresh, some h.fresh, a)

/-- `fibonacci_heap_decrease_key`. -/
def fibonacciHeapDecreaseKey (fuel : ℕ) (h : FibHeap α) (nodeHandle : Option Addr)
    (newValue : Option α) : Option (FibHeap α × ErrorCode) :=
  match nodeHandle, newValue with
  | some x, some v =>
    match h.min with
    | none => none
    | some min =>
      let data := Function.update h.data x (some v)
      let nodes :=
        match h.parent x with
        | none => some h.toFibNodes
        | some y =>
          if cmp (data x) (data y) < 0 then (h.cut min x y).cascadingCut min fuel y
          else some h.toFibNodes
      nodes.map fun m =>
        ({ h with
          toFibNodes := m
          data := data
          min := if cmp (data x) (data min) < 0 then some x else some min }, .success)
  | _, _ => some (h, .errorInvalidArg)

/-- `fibonacci_heap_pop`. -/
def fibonacciHeapPop (fuel : ℕ) (h : FibHeap α) : Option (FibHeap α × Option α) :=
  match h.min with
  | none => some (h, none)
  | some z =>
    (h.toFibNodes.promote z fuel).bind fun m =>
      let m := m.spliceOut z
      let consolidated : Option (FibNodes × Option Addr) :=
        if z = m.right z then some (m, none)
        else m.consolidate cmp h.data fuel (some (m.right z))
      consolidated.map fun r =>
        ({ h with toFibNodes := r.1, min := r.2, n := h.n - 1 }, h.data z)

/-- `fibonacci_heap_delete`. -/
def fibonacciHeapDelete (fuel : ℕ) (h : FibHeap α) (nodeHandle : Option Addr) :
    Option (FibHeap α × ErrorCode) :=
  match nodeHandle with
  | none => some (h, .errorInvalidArg)
  | some x =>
    let nodes :=
      match h.parent x with
      | none => some h.toFibNodes
      | some y =>
        match h.min with
        | none => none
        | some min => (h.cut min x y).cascadingCut min fuel y
    nodes.bind fun m =>
      (fibonacciHeapPop cmp fuel { h with toFibNodes := m, min := some x }).map fun r =>
        (r.1, .success)

end

/-- `fibonacci_heap_peek`. -/
def fibonacciHeapPeek (h : FibHeap α) : Option α :=
  match h.min with
  | none => none
  | some min => h.data min

/-- `fibonacci_heap_size`. -/
def fibonacciHeapSize (h : FibHeap α) : ℕ := h.n

/-- `fibonacci_heap_clear`. -/
def fibonacciHeapClear (h : FibHeap α) : FibHeap α := { h with min := none, n := 0 }

end Heap

end OvaLib
