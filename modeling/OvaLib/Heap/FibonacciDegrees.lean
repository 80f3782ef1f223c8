import OvaLib.Heap.FibonacciRefinement

/-!
# Degrees in a Fibonacci heap

`consolidate` has a table of 45 entries and drops a root whose degree would not fit. In every heap
that allowed calls lead to, a node of degree `d` has `fib (d + 2)` nodes in its subtree, read off
the child and right fields; with at most `INT_MAX` nodes no degree exceeds 44. `tableDegrees` lists
the degrees under which `consolidate` puts its roots.

## Where the bound comes from

A node is linked below another only when both have the same degree, and afterwards it may lose one
child: at the second one it is cut off itself, unless it is a root. So the `i`-th child of a node,
in the order in which they were linked, has at least `i - 2` children left. A subtree in which this
holds of every node, with `d` children at the root, has at least `fib (d + 2)` nodes. The mark
discipline is part of the invariant of the heap, where it is kept by every call; what it means for
the size of a subtree is a fact about forests.

`fib 47` is above `INT_MAX`, so a node of degree 45 would have more nodes below it than the size
counts. The table is long enough for the heaps that the size field allows, and not for longer ones.

## Scope

The subtree is read off the memory, by the child field and then right fields, as a traversal would
meet it. It is not the subtree of an abstract tree that is said to exist.

## Main results

* `mem_descendants_iff` — the subtree in memory is that of the forest
* `tableDegrees_lt` — the walk stays inside the table
* `fibonacciHeap_degrees` — every reachable state, and every call on it
-/

namespace OvaLib

namespace Heap

open Foundation

variable {α : Type*} {cmp : Option α → Option α → ℤ}

namespace FibNodes

/-- The nodes a traversal of the child ring of `p` meets. -/
inductive ChildOf (m : FibNodes) (p : Addr) : Addr → Prop
  | first {a : Addr} (ha : m.child p = some a) : ChildOf m p a
  | right {a : Addr} (ha : ChildOf m p a) : ChildOf m p (m.right a)

/-- **The subtree of a node**: the node, its children, their children, and so on. -/
def descendants (m : FibNodes) (a : Addr) : Set Addr :=
  {b | Relation.ReflTransGen m.ChildOf a b}

/-- The degrees under which `consolidateRoots` puts the roots it comes to. One that is not below
`maxDegree` has no place in the table. -/
def tableDegrees (cmp : Option α → Option α → ℤ) (data : Addr → Option α) :
    ℕ → FibNodes → (ℕ → Option Addr) → Addr → List ℕ
  | 0, _, _, _ => []
  | roots + 1, m, A, w =>
    let x := w
    let w := m.right w
    if data x = none then tableDegrees cmp data roots m A w
    else
      let (m, A, x, d) := mergeRoots cmp data (maxDegree - m.degree x) m A x
      let A := if d < maxDegree then Function.update A d (some x) else A
      d :: tableDegrees cmp data roots m A w

variable {data : Addr → Option α} {m : FibNodes} {R : Option Addr → List Addr} {nodes : Finset Addr}

theorem childOf_iff (h : Shape m R nodes) {a b : Addr} (ha : a ∈ nodes) :
    m.ChildOf a b ↔ b ∈ R (some a) := by
  constructor
  · intro hb
    induction hb with
    | first hb =>
      rw [h.child a ha] at hb
      exact List.mem_of_head? hb
    | right _ ih => exact (h.rings.neighbours ih).1.1
  · refine (h.ring (some a)).forall_of_right (fun c hc => .first ?_) (fun c => .right) b
    rw [h.child a ha]
    exact hc

/-- **The subtree in memory** is that of the forest. -/
theorem descendants_eq (h : Shape m R nodes) {a : Addr} (ha : a ∈ nodes) :
    m.descendants a = subtree R a := by
  ext b
  constructor
  · intro hb
    suffices b ∈ nodes ∧ b ∈ subtree R a from this.2
    induction hb with
    | refl => exact ⟨ha, .refl⟩
    | tail _ hc ih =>
      have hc := (childOf_iff h ih.1).mp hc
      exact ⟨h.forest.mem hc, ih.2.tail hc⟩
  · intro hb
    suffices b ∈ nodes ∧ b ∈ m.descendants a from this.2
    induction hb with
    | refl => exact ⟨ha, .refl⟩
    | tail _ hc ih => exact ⟨h.forest.mem hc, ih.2.tail ((childOf_iff h ih.1).mpr hc)⟩

/-- **A node of degree `d`** has `fib (d + 2)` nodes in its subtree. -/
theorem fib_le_descendants (h : Shape m R nodes) (hthin : MarkThin m R fun _ => 0) {a : Addr}
    (ha : a ∈ nodes) : Nat.fib (m.degree a + 2) ≤ (m.descendants a).ncard := by
  rw [h.degree a ha, descendants_eq h ha]
  exact h.forest.fib_le_subtree (h.thin hthin) ha

/-- **The walk stays inside the table**, by induction on the roots to come. -/
theorem tableDegrees_lt (h : IsComparator fun a b => cmp (some a) (some b))
    (hdata : ∀ a ∈ nodes, ∃ v, data a = some v) (hcard : nodes.card ≤ intMax) (todo : List Addr)
    {A : ℕ → Option Addr} {S : List Addr} {w : Addr} (ht : Tidy cmp data m R nodes)
    (hroots : R none = todo ++ S) (hw : ∀ a ∈ todo.head?, w = a)
    (hA : Registered m A fun a => a ∈ S) :
    ∀ d ∈ tableDegrees cmp data todo.length m A w, d < maxDegree := by
  induction todo generalizing m R A S w with
  | nil => exact fun d hd => absurd hd List.not_mem_nil
  | cons x todo ih =>
    obtain rfl : w = x := hw x rfl
    obtain ⟨v, hv⟩ := hdata w (ht.shape.forest.mem (hroots ▸ List.mem_cons_self : w ∈ R none))
    obtain ⟨m₁, A₁, x₁, d₁, R₁, T₁, hmerge, hd₁, ht₁, hroots₁, hA₁, hnext⟩ :=
      walkTurn_spec h hdata hcard ht hroots hA
    have hrest := ih ht₁ hroots₁ hnext hA₁
    have hnull : ¬data w = none := by simp [hv]
    rw [List.length_cons, tableDegrees]
    simp only [if_neg hnull, hmerge, if_pos hd₁]
    intro d hd
    rcases List.mem_cons.mp hd with rfl | hd
    · exact hd₁
    · exact hrest d hd

end FibNodes

/-! ## The operations

A call puts roots into the table only through a pop, and `delete_node` contains one. -/

/-- The degrees under which `fibonacci_heap_pop` puts roots into the table. -/
def popDegrees (cmp : Option α → Option α → ℤ) (fuel : ℕ) (h : FibHeap α) : List ℕ :=
  match h.min with
  | none => []
  | some z =>
    match h.toFibNodes.promote z fuel with
    | none => []
    | some m =>
      let m := m.spliceOut z
      if z = m.right z then []
      else
        match m.countRoots (m.right z) fuel (m.right z) with
        | none => []
        | some roots => FibNodes.tableDegrees cmp h.data roots m (fun _ => none) (m.right z)

/-- The degrees under which a call puts roots into the table. -/
def callDegrees (cmp : Option α → Option α → ℤ) (h : FibHeap α) : Call α → List ℕ
  | .pop => popDegrees cmp (2 * h.n + 1) h
  | .deleteNode x =>
    match detach (2 * h.n + 1) h x with
    | none => []
    | some m => popDegrees cmp (2 * h.n + 1) { h with toFibNodes := m, min := some x }
  | _ => []

variable {h : FibHeap α} {R : Option Addr → List Addr} {nodes : Finset Addr}

/-- **Popping stays inside the table.** -/
theorem popDegrees_lt (hc : IsComparator fun a b => cmp (some a) (some b))
    (hs : Sound cmp h R nodes) {fuel : ℕ} (hfuel : 2 * nodes.card ≤ fuel) :
    ∀ d ∈ popDegrees cmp fuel h, d < FibNodes.maxDegree := by
  intro d hd
  rw [popDegrees] at hd
  cases hz : h.min with
  | none =>
    rw [hz] at hd
    exact absurd hd List.not_mem_nil
  | some z =>
    obtain ⟨hzmem, m, R', hpromote, hu⟩ := uproot_spec hs hz hfuel
    have hcard : (nodes.erase z).card + 1 = nodes.card := Finset.card_erase_add_one hzmem
    have hcard_le := hs.card_le
    rw [hz] at hd
    simp only [hpromote] at hd
    cases hroots : R' none with
    | nil =>
      have hright := hu.right
      rw [hroots] at hright
      rw [if_pos (show z = (m.spliceOut z).right z from hright.symm)] at hd
      exact absurd hd List.not_mem_nil
    | cons b l =>
      obtain ⟨hright, hne, hlen⟩ := hu.head_spec hroots
      have hcount : (m.spliceOut z).countRoots b fuel b = some (b :: l).length :=
        FibNodes.countRoots_spec (s := []) (hroots ▸ hu.tidy.shape.ring none)
          (hroots ▸ hu.tidy.shape.forest.nodup none) rfl (by omega)
      rw [hright, if_neg hne, hcount] at hd
      exact FibNodes.tableDegrees_lt hc
        (fun a ha => hs.payload a (Finset.mem_of_mem_erase ha)) (by omega) (b :: l) hu.tidy
        (S := []) (by rw [hroots, List.append_nil]) (fun a ha => Option.some.inj ha)
        (fun d a => by simp) d hd

/-- **Degrees in every reachable heap.** A node of degree `d` has `fib (d + 2)` nodes in its
subtree, and no degree exceeds 44. No allowed call leaves the table of `consolidate`, and none loses
a node other than the one it takes out. -/
theorem fibonacciHeap_degrees (hc : IsComparator fun a b : α => cmp (some a) (some b))
    {h : FibHeap α} (hh : Reachable cmp h) :
    (∀ a, Reach h a → Nat.fib (h.degree a + 2) ≤ (h.toFibNodes.descendants a).ncard ∧
      h.degree a ≤ 44) ∧
    ∀ call, Allowed cmp (contents h) call →
      (∀ d ∈ callDegrees cmp h call, d < FibNodes.maxDegree) ∧
      ∃ h' answer, fibStep cmp h call = some (h', answer) ∧
        (call ≠ .clear → ∀ a, Reach h a → takenOut h call ≠ some a → Reach h' a) := by
  obtain ⟨R, nodes, hr⟩ := hh.represents hc
  have hs := hr.toSound
  have hshape := hs.tidy.shape
  have hsize := hs.size
  refine ⟨fun a ha => ?_, fun call hallowed => ⟨?_, ?_⟩⟩
  · have ha := (reach_iff hs a).mp ha
    have hlt := hshape.degree_lt hs.tidy.markThin hs.card_le ha
    rw [FibNodes.maxDegree] at hlt
    exact ⟨FibNodes.fib_le_descendants hshape hs.tidy.markThin ha, by omega⟩
  · cases call with
    | pop => exact popDegrees_lt hc hs (by omega)
    | deleteNode x =>
      obtain ⟨m, R', hdetach, hs'⟩ := detach_spec hs (mem_of_contents hs hallowed)
        (show nodes.card < 2 * h.n + 1 by omega)
      rw [callDegrees, hdetach]
      exact popDegrees_lt hc hs' (by omega)
    | _ => exact fun d hd => absurd hd List.not_mem_nil
  · obtain ⟨h', answer, R', nodes', hstep, -, hr', hkeep⟩ := fibStep_spec hc hr hallowed
    exact ⟨h', answer, hstep, fun hne a ha hout =>
      (reach_iff hr'.toSound a).mpr (hkeep hne a ((reach_iff hs a).mp ha) hout)⟩

/-- Payloads 3, 1, 2 and 4. The pop puts the three roots left under the degrees 0, 1 and 0, so that
4 is linked below 2, whose degree is then 1. -/
theorem fibonacciHeap_degrees_four :
    let cmp : Option ℤ → Option ℤ → ℤ := fun a b => a.getD 0 - b.getD 0
    let h := putAll cmp [3, 1, 2, 4]
    callDegrees cmp h .pop = [0, 1, 0] ∧ (∀ d ∈ callDegrees cmp h .pop, d < FibNodes.maxDegree) ∧
      ∃ h' answer, fibStep cmp h .pop = some (h', answer) ∧ Reach h' 2 ∧ h'.degree 2 = 1 ∧
        Nat.fib (1 + 2) ≤ (h'.toFibNodes.descendants 2).ncard := by
  intro cmp h
  have hc : IsComparator fun a b : ℤ => cmp (some a) (some b) := subtract_isComparator
  have hh : Reachable cmp h := reachable_putAll hc [3, 1, 2, 4] (by decide)
  obtain ⟨hdegrees, h', answer, hrun, -⟩ := (fibonacciHeap_degrees hc hh).2 .pop trivial
  have hpop : (fibStep cmp h .pop).map (fun r => (r.1.min, r.1.degree 2)) = some (some 2, 1) := by
    decide +kernel
  rw [hrun] at hpop
  simp only [Option.map_some, Option.some.injEq, Prod.mk.injEq] at hpop
  obtain ⟨hmin, hdegree⟩ := hpop
  refine ⟨by decide +kernel, hdegrees, h', answer, hrun, .min hmin, hdegree, ?_⟩
  have hallowed : Allowed cmp (contents h) .pop := trivial
  have hfib := ((fibonacciHeap_degrees hc (.step hh hallowed hrun)).1 2 (.min hmin)).1
  rwa [hdegree] at hfib

end Heap

end OvaLib
