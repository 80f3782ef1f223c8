import OvaLib.Heap.FibonacciRefinement

/-!
# `NULL` payloads in a Fibonacci heap

`consolidate` passes over a root whose payload is `NULL`, and the ring it builds lacks that root:
the node is lost, while `h->n` still counts it. A run loses nothing as long as every pop and every
delete finds no `NULL` payload but the one it takes out.

Such a run does what the heap does when `NULL` is a payload like any other. `wrap` turns a heap into
one in which every payload is `some` of the old one; the operations commute with it as long as the
roots that are consolidated hold no `NULL`.

## Why a simulation

The invariant of the heap says of every stored payload that it is not `NULL`. To prove everything
again for payloads that may be `NULL` would be to prove it twice. In the wrapped heap no payload is
`NULL`, whatever the heap holds, so the invariant and all that was proved from it apply to the
wrapped heap as they stand. What is left to show is that the code does the same to a heap and to the
wrapped one: it reads payloads in `consolidate` only to compare them and to test them for `NULL`,
and the test is where the two can differ.

`Closed` is a set of nodes that no pointer leads out of. The walk of `consolidate` stays inside it,
so the payloads it tests are those of the set.

## Scope

The condition of a call is on the state before it. A put may bring in a `NULL` payload at any time,
and as long as no other call comes but the pop that takes it out, nothing is lost.

## Main results

* `consolidate_wrap`, `fibonacciHeapPop_wrap`, `fibonacciHeapDelete_wrap` — the simulation
* `fibonacciHeap_counts` — every state of such a run
-/

namespace OvaLib

namespace Heap

open Foundation

variable {α : Type*} {cmp : Option α → Option α → ℤ}

/-! ## Calls with any payload -/

/-- A call with any payload. -/
inductive AnyCall (α : Type*)
  | put (item : Option α)
  | putWithHandle (item : Option α)
  | deleteNode (nodeHandle : Addr)
  | pop

/-- The heap after a call; every allocation succeeds. -/
def anyStep (cmp : Option α → Option α → ℤ) (h : FibHeap α) : AnyCall α → Option (FibHeap α)
  | .put item => some (fibonacciHeapPut cmp .always h item).1
  | .putWithHandle item => some (fibonacciHeapPutWithHandle cmp .always h item).1
  | .deleteNode x => (fibonacciHeapDelete cmp (2 * h.n + 1) h (some x)).map Prod.fst
  | .pop => (fibonacciHeapPop cmp (2 * h.n + 1) h).map Prod.fst

/-- Popping while the size is positive. -/
def popAll (cmp : Option α → Option α → ℤ) : ℕ → FibHeap α → Option (FibHeap α)
  | 0, _ => none
  | fuel + 1, h =>
    if fibonacciHeapSize h = 0 then some h
    else (anyStep cmp h .pop).bind fun h => popAll cmp fuel h

/-- The calls that lose nothing: there is room for one more, a handle is live, and no node but the
one taken out holds `NULL`. -/
def Sparing (h : FibHeap α) : AnyCall α → Prop
  | .put _ | .putWithHandle _ => {a | Reach h a}.ncard < intMax
  | .deleteNode x => Reach h x ∧ ∀ a, Reach h a → a ≠ x → h.data a ≠ none
  | .pop => ∀ a, Reach h a → h.min ≠ some a → h.data a ≠ none

/-- The heaps that such calls lead to. -/
inductive SparingRun (cmp : Option α → Option α → ℤ) : FibHeap α → Prop
  | create : SparingRun cmp createFibonacciHeap
  | step {h h' : FibHeap α} {call : AnyCall α} (hh : SparingRun cmp h) (hcall : Sparing h call)
      (hstep : anyStep cmp h call = some h') : SparingRun cmp h'

/-- **The size is right**: it is the number of nodes that can be reached, and the minimum is there
when it is positive. -/
structure Counts (h : FibHeap α) : Prop where
  finite : {a | Reach h a}.Finite
  size_eq : h.n = {a | Reach h a}.ncard
  min_iff : h.min = none ↔ h.n = 0

/-! ## Payloads wrapped

The comparator of the wrapped heap unwraps before it compares, so it orders wrapped payloads as the
old one orders payloads, `NULL` among them. -/

/-- `NULL` becomes a payload like any other. -/
def wrap (h : FibHeap α) : FibHeap (Option α) where
  toFibNodes := h.toFibNodes
  data a := some (h.data a)
  min := h.min
  n := h.n
  fresh := h.fresh

/-- The comparator for wrapped payloads. -/
def wrapCmp (cmp : Option α → Option α → ℤ) (p q : Option (Option α)) : ℤ := cmp p.join q.join

theorem wrapCmp_isComparator (hc : IsComparator cmp) :
    IsComparator fun p q => wrapCmp cmp (some p) (some q) :=
  hc

theorem reach_wrap {h : FibHeap α} {a : Addr} : Reach (wrap h) a ↔ Reach h a := by
  constructor <;> intro ha
  · induction ha with
    | min hmin => exact .min hmin
    | right _ ih => exact ih.right
    | child _ hb ih => exact ih.child hb
  · induction ha with
    | min hmin => exact .min hmin
    | right _ ih => exact ih.right
    | child _ hb ih => exact ih.child hb

theorem insert_wrap (cmp : Option α → Option α → ℤ) (h : FibHeap α) (item : Option α) :
    wrap (fibonacciHeapInsert cmp (fibNodeCreate h item) h.fresh) =
      fibonacciHeapInsert (wrapCmp cmp) (fibNodeCreate (wrap h) (some item)) h.fresh := by
  have hcreate : wrap (fibNodeCreate h item) = fibNodeCreate (wrap h) (some item) := by
    rw [fibNodeCreate, fibNodeCreate, wrap]
    congr 1
    funext a
    by_cases ha : a = h.fresh
    · rw [ha]
      simp [wrap]
    · simp [wrap, Function.update_of_ne ha]
  rw [← hcreate]
  generalize fibNodeCreate h item = g
  have hmin : (wrap g).min = g.min := rfl
  rw [fibonacciHeapInsert, fibonacciHeapInsert, hmin]
  cases g.min <;> rfl

namespace FibNodes

variable {data : Addr → Option α} {m : FibNodes} {Q : Addr → Prop}

/-- No field of a node satisfying `Q` leads out of `Q`. -/
structure Closed (m : FibNodes) (Q : Addr → Prop) : Prop where
  left : ∀ {a}, Q a → Q (m.left a)
  right : ∀ {a}, Q a → Q (m.right a)
  child : ∀ {a b}, Q a → m.child a = some b → Q b

namespace Closed

theorem of_update (Q : Addr → Prop) {f : Addr → Addr} (hf : ∀ {a}, Q a → Q (f a)) (x : Addr)
    {v : Addr} (hv : Q v) {a : Addr} (ha : Q a) : Q (Function.update f x v a) := by
  by_cases hax : a = x
  · rwa [hax, Function.update_self]
  · rw [Function.update_of_ne hax]
    exact hf ha

theorem setLeft (h : Closed m Q) (x : Addr) {v : Addr} (hv : Q v) : Closed (m.setLeft x v) Q :=
  ⟨of_update Q h.left x hv, h.right, h.child⟩

theorem setRight (h : Closed m Q) (x : Addr) {v : Addr} (hv : Q v) : Closed (m.setRight x v) Q :=
  ⟨h.left, of_update Q h.right x hv, h.child⟩

theorem setChild (h : Closed m Q) (x : Addr) {v : Addr} (hv : Q v) :
    Closed (m.setChild x (some v)) Q := by
  refine ⟨h.left, h.right, fun {a b} ha hb => ?_⟩
  have hb : Function.update m.child x (some v) a = some b := hb
  by_cases hax : a = x
  · rw [hax, Function.update_self] at hb
    exact Option.some.inj hb ▸ hv
  · rw [Function.update_of_ne hax] at hb
    exact h.child ha hb

/-- Only the links and the child fields count. -/
theorem congr {m' : FibNodes} (h : Closed m Q) (hleft : m'.left = m.left)
    (hright : m'.right = m.right) (hchild : m'.child = m.child) : Closed m' Q :=
  ⟨hleft ▸ h.left, hright ▸ h.right, hchild ▸ h.child⟩

theorem spliceOut (h : Closed m Q) {x : Addr} (hx : Q x) : Closed (m.spliceOut x) Q := by
  have h₁ := h.setRight (m.left x) (h.right hx)
  exact h₁.setLeft _ (h₁.left hx)

/-- **`fib_node_link`** of two such nodes. -/
theorem fibNodeLink (h : Closed m Q) {x y : Addr} (hx : Q x) (hy : Q y) :
    Closed (m.fibNodeLink y x) Q := by
  have h₁ : Closed ((m.spliceOut y).setParent y (some x)) Q := (h.spliceOut hy).congr rfl rfl rfl
  have h₂ := h₁.setRight y hy
  have h₃ := h₂.setLeft y (h₂.right hy)
  rw [FibNodes.fibNodeLink]
  dsimp only
  split
  · exact (h₃.setChild x hy).congr rfl rfl rfl
  · next c hc =>
    have hcQ : Q c := h₃.child hx hc
    have h₄ := h₃.setRight y hcQ
    have h₅ := h₄.setLeft y (h₄.left hcQ)
    exact ((h₅.setRight _ hy).setLeft c hy).congr rfl rfl rfl

end Closed

/-- The nodes of a forest are closed. -/
theorem Shape.closed {R : Option Addr → List Addr} {nodes : Finset Addr} (h : Shape m R nodes) :
    Closed m (· ∈ nodes) where
  left := fun ha => by
    obtain ⟨o, ho⟩ := h.forest.mem_iff.mp ha
    exact h.forest.mem (h.rings.neighbours ho).2.1
  right := fun ha => by
    obtain ⟨o, ho⟩ := h.forest.mem_iff.mp ha
    exact h.forest.mem (h.rings.neighbours ho).1.1
  child := fun ha hb => by
    rw [h.child _ ha] at hb
    exact h.forest.mem (List.mem_of_head? hb)

/-! ## Consolidation without `NULL`

Each loop reads payloads of the closed set and ends in it. -/

/-- `A` holds nodes of `Q` only. -/
def TableIn (A : ℕ → Option Addr) (Q : Addr → Prop) : Prop := ∀ d a, A d = some a → Q a

theorem TableIn.empty (Q : Addr → Prop) : TableIn (fun _ => none) Q := fun _ _ hd => by cases hd

theorem TableIn.update {A : ℕ → Option Addr} (hA : TableIn A Q) (d : ℕ) {p : Option Addr}
    (hp : ∀ a, p = some a → Q a) : TableIn (Function.update A d p) Q := by
  intro e a he
  by_cases hed : e = d
  · rw [hed, Function.update_self] at he
    exact hp a he
  · rw [Function.update_of_ne hed] at he
    exact hA e a he

/-- **The inner loop** reads payloads of `Q` only. -/
theorem mergeRoots_wrap (cmp : Option α → Option α → ℤ) (hQ : ∀ a, Q a → data a ≠ none) (left : ℕ)
    {A : ℕ → Option Addr} {x : Addr} (h : Closed m Q) (hA : TableIn A Q) (hx : Q x) :
    mergeRoots (wrapCmp cmp) (fun a => some (data a)) left m A x = mergeRoots cmp data left m A x ∧
      Closed (mergeRoots cmp data left m A x).1 Q ∧
      TableIn (mergeRoots cmp data left m A x).2.1 Q ∧
      Q (mergeRoots cmp data left m A x).2.2.1 := by
  induction left generalizing m A x with
  | zero => exact ⟨rfl, h, hA, hx⟩
  | succ left ih =>
    simp only [mergeRoots]
    cases hAd : A (maxDegree - (left + 1)) with
    | none => exact ⟨rfl, h, hA, hx⟩
    | some y =>
      have hy := hA _ _ hAd
      have hA' := hA.update (maxDegree - (left + 1)) (p := none)
        (fun _ hnone => absurd hnone (by simp))
      simp only [if_neg (hQ y hy), reduceCtorEq, if_false]
      by_cases hgt : cmp (data x) (data y) > 0
      · have hgt' : wrapCmp cmp (some (data x)) (some (data y)) > 0 := hgt
        simp only [if_pos hgt, if_pos hgt']
        exact ih (h.fibNodeLink hy hx) hA' hy
      · have hgt' : ¬ wrapCmp cmp (some (data x)) (some (data y)) > 0 := hgt
        simp only [if_neg hgt, if_neg hgt']
        exact ih (h.fibNodeLink hx hy) hA' hx

/-- **The walk** reads payloads of `Q` only. -/
theorem consolidateRoots_wrap (hQ : ∀ a, Q a → data a ≠ none) (roots : ℕ) {A : ℕ → Option Addr}
    {w : Addr} (h : Closed m Q) (hA : TableIn A Q) (hw : Q w) :
    consolidateRoots (wrapCmp cmp) (fun a => some (data a)) roots m A w =
      consolidateRoots cmp data roots m A w := by
  induction roots generalizing m A w with
  | zero => rfl
  | succ roots ih =>
    obtain ⟨heq, h', hA', hx'⟩ := mergeRoots_wrap cmp hQ (maxDegree - m.degree w) h hA hw
    simp only [consolidateRoots, if_neg (hQ w hw), reduceCtorEq, if_false, heq]
    refine ih h' ?_ (h.right hw)
    split
    · exact hA'.update _ fun a ha => Option.some.inj ha ▸ hx'
    · exact hA'

/-- **`consolidate`**, when no root holds `NULL`. -/
theorem consolidate_wrap (hQ : ∀ a, Q a → data a ≠ none) (fuel : ℕ) {start : Addr} (h : Closed m Q)
    (hstart : Q start) :
    m.consolidate (wrapCmp cmp) (fun a => some (data a)) fuel (some start) =
      m.consolidate cmp data fuel (some start) := by
  simp only [consolidate]
  congr 1
  funext roots
  rw [consolidateRoots_wrap hQ roots h (.empty Q) hstart]
  rfl

end FibNodes

/-! ## The operations -/

variable {h : FibHeap α} {R : Option Addr → List Addr} {nodes : Finset Addr}

/-- **`fibonacci_heap_pop`**, when no node but the one it takes out holds `NULL`. -/
theorem fibonacciHeapPop_wrap (hs : Sound (wrapCmp cmp) (wrap h) R nodes)
    (hnull : ∀ a ∈ nodes, h.min ≠ some a → h.data a ≠ none) {fuel : ℕ}
    (hfuel : 2 * nodes.card ≤ fuel) :
    fibonacciHeapPop (wrapCmp cmp) fuel (wrap h) =
      (fibonacciHeapPop cmp fuel h).map fun r => (wrap r.1, h.min.map h.data) := by
  have hmin : (wrap h).min = h.min := rfl
  rw [fibonacciHeapPop, fibonacciHeapPop, hmin]
  cases hz : h.min with
  | none => rfl
  | some z =>
    obtain ⟨-, m, R', hpromote, hu⟩ := uproot_spec hs hz hfuel
    have hpromote : h.toFibNodes.promote z fuel = some m := hpromote
    have hQ : ∀ a, a ∈ nodes.erase z → h.data a ≠ none := fun a ha => by
      obtain ⟨haz, ha⟩ := Finset.mem_erase.mp ha
      exact hnull a ha fun heq => haz (Option.some.inj (hz.symm.trans heq)).symm
    show ((h.toFibNodes.promote z fuel).bind _) = ((h.toFibNodes.promote z fuel).bind _).map _
    rw [hpromote, Option.bind_some, Option.bind_some]
    dsimp only
    by_cases hloop : z = (m.spliceOut z).right z
    · rw [if_pos hloop, if_pos hloop]
      rfl
    · have hmem : (m.spliceOut z).right z ∈ nodes.erase z := by
        have hright := hu.right
        cases hroots : R' none with
        | nil =>
          rw [hroots] at hright
          exact absurd hright.symm hloop
        | cons b l =>
          rw [hroots] at hright
          rw [hright]
          exact hu.tidy.shape.forest.mem (hroots ▸ List.mem_cons_self : b ∈ R' none)
      rw [if_neg hloop, if_neg hloop]
      have hcons : (m.spliceOut z).consolidate (wrapCmp cmp) (wrap h).data fuel
          (some ((m.spliceOut z).right z)) = (m.spliceOut z).consolidate cmp h.data fuel
          (some ((m.spliceOut z).right z)) :=
        FibNodes.consolidate_wrap hQ fuel hu.tidy.shape.closed hmem
      rw [hcons, Option.map_map]
      rfl

/-- **`fibonacci_heap_delete`**, when no node but the one it takes out holds `NULL`. -/
theorem fibonacciHeapDelete_wrap (hs : Sound (wrapCmp cmp) (wrap h) R nodes) {x : Addr}
    (hx : x ∈ nodes) (hnull : ∀ a ∈ nodes, a ≠ x → h.data a ≠ none) {fuel : ℕ}
    (hfuel : 2 * nodes.card < fuel) :
    fibonacciHeapDelete (wrapCmp cmp) fuel (wrap h) (some x) =
      (fibonacciHeapDelete cmp fuel h (some x)).map fun r => (wrap r.1, r.2) := by
  obtain ⟨m, R', hdetach, hs'⟩ := detach_spec hs hx (show nodes.card < fuel by omega)
  have hdetach' : detach fuel h x = some m := hdetach
  have hpop := fibonacciHeapPop_wrap (h := { h with toFibNodes := m, min := some x }) hs'
    (fun a ha hne => hnull a ha fun heq => hne (by rw [heq])) (show 2 * nodes.card ≤ fuel by omega)
  rw [fibonacciHeapDelete_eq, fibonacciHeapDelete_eq, hdetach, hdetach', Option.bind_some,
    Option.bind_some, Option.map_map]
  refine (congrArg (Option.map _) hpop).trans ?_
  rw [Option.map_map]
  rfl

/-! ## Every run

The wrapped heap satisfies the invariant of the Fibonacci heap, and the size is read off it. -/

/-- The invariant: wrapped, the heap is a heap of the given nodes. -/
def Wrapped (cmp : Option α → Option α → ℤ) (h : FibHeap α) (nodes : Finset Addr) : Prop :=
  ∃ R, Represents (wrapCmp cmp) (wrap h) R nodes

theorem Wrapped.reach_iff (hw : Wrapped cmp h nodes) (a : Addr) : Reach h a ↔ a ∈ nodes := by
  obtain ⟨R, hr⟩ := hw
  exact reach_wrap.symm.trans (Heap.reach_iff hr.toSound a)

theorem Wrapped.setOf_reach (hw : Wrapped cmp h nodes) : {a | Reach h a} = (nodes : Set Addr) :=
  Set.ext hw.reach_iff

theorem Wrapped.counts (hw : Wrapped cmp h nodes) : Counts h := by
  have hset := hw.setOf_reach
  obtain ⟨R, hr⟩ := hw
  have hsize : h.n = nodes.card := hr.size
  refine ⟨hset ▸ nodes.finite_toSet, by rw [hset, Set.ncard_coe_finset, hsize], ?_⟩
  rw [hsize, Finset.card_eq_zero]
  have hhead : h.min = (R none).head? := hr.head
  rw [hhead, List.head?_eq_none_iff]
  constructor
  · intro hroots
    refine Finset.eq_empty_of_forall_notMem fun a ha => ?_
    obtain ⟨c, t, hct⟩ := exists_root hr.tidy.shape.forest ha
    rw [hroots] at hct
    cases hct
  · rintro rfl
    exact List.eq_nil_iff_forall_not_mem.mpr fun a ha =>
      Finset.notMem_empty a (hr.tidy.shape.forest.mem ha)

/-- A put adds the next address. -/
theorem Wrapped.put (hc : IsComparator cmp) (hw : Wrapped cmp h nodes) (item : Option α)
    (hroom : {a | Reach h a}.ncard < intMax) :
    Wrapped cmp (fibonacciHeapInsert cmp (fibNodeCreate h item) h.fresh)
      (insert h.fresh nodes) := by
  rw [hw.setOf_reach, Set.ncard_coe_finset] at hroom
  obtain ⟨R, hr⟩ := hw
  obtain ⟨h', R', hrun, hr', -⟩ :=
    fibonacciHeapInsert_spec (wrapCmp_isComparator hc) hr item hroom
  refine ⟨R', ?_⟩
  rw [insert_wrap]
  exact hrun ▸ hr'

/-- A pop takes out the minimum, and the payloads stay where they are. -/
theorem Wrapped.pop (hc : IsComparator cmp) (hw : Wrapped cmp h nodes)
    (hnull : ∀ a ∈ nodes, h.min ≠ some a → h.data a ≠ none) {z : Addr} (hz : h.min = some z) :
    ∃ h', anyStep cmp h .pop = some h' ∧ Wrapped cmp h' (nodes.erase z) ∧ h'.data = h.data ∧
      z ∈ nodes := by
  obtain ⟨R, hr⟩ := hw
  have hsize : h.n = nodes.card := hr.size
  have hfuel : 2 * nodes.card ≤ 2 * h.n + 1 := by omega
  obtain ⟨g, R', hrun, hr', hdata, hzmem⟩ :=
    fibonacciHeapPop_spec (wrapCmp_isComparator hc) hr.toSound hz hfuel
  rw [fibonacciHeapPop_wrap hr.toSound hnull hfuel, Option.map_eq_some_iff] at hrun
  obtain ⟨r, hpop, hreq⟩ := hrun
  obtain ⟨rfl, -⟩ := Prod.mk.inj hreq
  refine ⟨r.1, by rw [anyStep, hpop]; rfl, ⟨R', hr'⟩, funext fun a => ?_, hzmem⟩
  exact Option.some.inj (congrFun hdata a)

/-- **One call** of such a run. -/
theorem Wrapped.step (hc : IsComparator cmp) (hw : Wrapped cmp h nodes) {call : AnyCall α}
    (hcall : Sparing h call) :
    ∃ h' nodes', anyStep cmp h call = some h' ∧ Wrapped cmp h' nodes' := by
  cases call with
  | put item => exact ⟨_, _, rfl, hw.put hc item hcall⟩
  | putWithHandle item => exact ⟨_, _, rfl, hw.put hc item hcall⟩
  | deleteNode x =>
    obtain ⟨hx, hnull⟩ := hcall
    have hx := (hw.reach_iff x).mp hx
    have hnull : ∀ a ∈ nodes, a ≠ x → h.data a ≠ none :=
      fun a ha => hnull a ((hw.reach_iff a).mpr ha)
    obtain ⟨R, hr⟩ := hw
    have hsize : h.n = nodes.card := hr.size
    have hfuel : 2 * nodes.card < 2 * h.n + 1 := by omega
    obtain ⟨g, R', hrun, hr', -⟩ := fibonacciHeapDelete_spec (wrapCmp_isComparator hc) hr hx hfuel
    rw [fibonacciHeapDelete_wrap hr.toSound hx hnull hfuel, Option.map_eq_some_iff] at hrun
    obtain ⟨r, hdelete, hreq⟩ := hrun
    obtain ⟨rfl, -⟩ := Prod.mk.inj hreq
    exact ⟨r.1, _, by rw [anyStep, hdelete]; rfl, R', hr'⟩
  | pop =>
    cases hz : h.min with
    | none =>
      refine ⟨h, nodes, ?_, hw⟩
      rw [anyStep, fibonacciHeapPop, hz]
      rfl
    | some z =>
      obtain ⟨h', hstep, hw', -⟩ :=
        hw.pop hc (fun a ha => hcall a ((hw.reach_iff a).mpr ha)) hz
      exact ⟨h', _, hstep, hw'⟩

theorem SparingRun.wrapped (hc : IsComparator cmp) (hh : SparingRun cmp h) :
    ∃ nodes, Wrapped cmp h nodes := by
  induction hh with
  | create => exact ⟨∅, _, represents_empty rfl rfl⟩
  | step _ hcall hstep ih =>
    obtain ⟨nodes, hw⟩ := ih
    obtain ⟨h', nodes', hstep', hw'⟩ := hw.step hc hcall
    rw [hstep] at hstep'
    cases hstep'
    exact ⟨nodes', hw'⟩

/-- **Popping while the size is positive** ends, by induction on the number of nodes: after the
first pop no `NULL` is left. -/
theorem Wrapped.popAll (hc : IsComparator cmp) (hw : Wrapped cmp h nodes)
    (hnull : ∀ a ∈ nodes, h.min ≠ some a → h.data a ≠ none) {fuel : ℕ} (hfuel : nodes.card < fuel) :
    ∃ h', popAll cmp fuel h = some h' := by
  induction fuel generalizing h nodes with
  | zero => exact absurd hfuel (Nat.not_lt_zero _)
  | succ fuel ih =>
    rw [Heap.popAll]
    by_cases hsize : fibonacciHeapSize h = 0
    · exact ⟨h, if_pos hsize⟩
    · rw [if_neg hsize]
      obtain ⟨z, hz⟩ : ∃ z, h.min = some z :=
        Option.ne_none_iff_exists'.mp fun hmin => hsize (hw.counts.min_iff.mp hmin)
      obtain ⟨h', hstep, hw', hdata, hzmem⟩ := hw.pop hc hnull hz
      have hcard := Finset.card_erase_add_one hzmem
      rw [hstep, Option.bind_some]
      refine ih hw' (fun a ha _ => ?_) (by omega)
      obtain ⟨haz, ha⟩ := Finset.mem_erase.mp ha
      rw [hdata]
      exact hnull a ha fun heq => haz (Option.some.inj (hz.symm.trans heq)).symm

/-- **Runs that lose nothing.** As long as every pop and every delete finds no `NULL` payload but
the one it takes out, and there is room for every put, the size is the number of nodes that can be
reached, and the minimum is missing only at size 0. Every further call of that kind returns, and so
does popping while the size is positive. -/
theorem fibonacciHeap_counts (hc : IsComparator cmp) (hh : SparingRun cmp h) :
    Counts h ∧ (∀ call, Sparing h call → ∃ h', anyStep cmp h call = some h') ∧
      (Sparing h .pop → ∃ h', popAll cmp (h.n + 1) h = some h') := by
  obtain ⟨nodes, hw⟩ := hh.wrapped hc
  have hcounts := hw.counts
  refine ⟨hcounts, fun call hcall => ?_, fun hpop => ?_⟩
  · obtain ⟨h', -, hstep, -⟩ := hw.step hc hcall
    exact ⟨h', hstep⟩
  · refine hw.popAll hc (fun a ha => hpop a ((hw.reach_iff a).mpr ha)) ?_
    rw [hcounts.size_eq, hw.setOf_reach, Set.ncard_coe_finset]
    exact Nat.lt_succ_self _

/-- There is room for one more payload. -/
theorem SparingRun.sparing_put (hc : IsComparator cmp) (hh : SparingRun cmp h)
    (hroom : h.n < intMax) (item : Option α) : Sparing h (.put item) := by
  obtain ⟨nodes, hw⟩ := hh.wrapped hc
  show {a | Reach h a}.ncard < intMax
  rwa [← hw.counts.size_eq]

/-- Payloads 3, `NULL` and 2, where `NULL` is the least. The first pop takes it out, and the size
is that of the two nodes left, which further pops take out as well. -/
theorem fibonacciHeap_counts_null :
    let cmp : Option ℤ → Option ℤ → ℤ := fun p q => p.getD 0 - q.getD 0
    ∃ h₁ h₂ h₃ h₄ h₅, anyStep cmp createFibonacciHeap (.put (some 3)) = some h₁ ∧
      anyStep cmp h₁ (.put none) = some h₂ ∧ anyStep cmp h₂ (.put (some 2)) = some h₃ ∧
      Counts h₃ ∧ h₃.n = 3 ∧ anyStep cmp h₃ .pop = some h₄ ∧ Counts h₄ ∧ h₄.n = 2 ∧
      popAll cmp 3 h₄ = some h₅ := by
  intro cmp
  have hc : IsComparator cmp := ⟨fun p q => subtract_isComparator.neg_iff _ _,
    fun hpq hqr => subtract_isComparator.le_trans hpq hqr⟩
  obtain ⟨h₁, h₂, h₃, hput₁, hput₂, hput₃, hn₁, hn₂, hn₃, hmin, hdata, hright, hchild, hpopped⟩ :
      ∃ h₁ h₂ h₃, anyStep cmp createFibonacciHeap (.put (some 3)) = some h₁ ∧
      anyStep cmp h₁ (.put none) = some h₂ ∧ anyStep cmp h₂ (.put (some 2)) = some h₃ ∧
      h₁.n = 1 ∧ h₂.n = 2 ∧ h₃.n = 3 ∧ h₃.min = some 1 ∧
      (∀ a < 3, h₃.data a = none → a = 1) ∧ (∀ a < 3, h₃.right a < 3) ∧
      (∀ a < 3, h₃.child a = none) ∧
      (anyStep cmp h₃ .pop).map (fun h => (h.n, h.min)) = some (2, some 2) ∧
      (anyStep cmp h₃ .pop).map (fun h => (h.right 0, h.child 0, h.data 0)) =
        some (0, none, some 3) ∧
      (anyStep cmp h₃ .pop).map (fun h => (h.right 2, h.child 2, h.data 2)) =
        some (2, some 0, some 2) :=
    ⟨_, _, _, rfl, rfl, rfl, rfl, rfl, rfl, rfl, by decide, by decide, by decide,
      by decide +kernel, by decide +kernel, by decide +kernel⟩
  have hrun₁ : SparingRun cmp h₁ :=
    .step .create (SparingRun.create.sparing_put hc (by decide) _) hput₁
  have hrun₂ : SparingRun cmp h₂ :=
    .step hrun₁ (hrun₁.sparing_put hc (by rw [hn₁]; decide) _) hput₂
  have hrun₃ : SparingRun cmp h₃ :=
    .step hrun₂ (hrun₂.sparing_put hc (by rw [hn₂]; decide) _) hput₃
  have hlt : ∀ a, Reach h₃ a → a < 3 := by
    intro a ha
    induction ha with
    | min ha =>
      rw [hmin] at ha
      cases ha
      decide
    | right _ ih => exact hright _ ih
    | child _ hb ih =>
      rw [hchild _ ih] at hb
      cases hb
  have hpop : Sparing h₃ .pop := fun a ha hne hnull =>
    hne (by rw [hmin, hdata a (hlt a ha) hnull])
  obtain ⟨hcounts₃, hcalls, -⟩ := fibonacciHeap_counts hc hrun₃
  obtain ⟨h₄, hrun₄⟩ := hcalls .pop hpop
  rw [hrun₄] at hpopped
  simp only [Option.map_some, Option.some.injEq, Prod.mk.injEq] at hpopped
  obtain ⟨⟨hn₄, hmin₄⟩, ⟨hright₀, hchild₀, hdata₀⟩, hright₂, hchild₂, hdata₂⟩ := hpopped
  have hleft : ∀ a, Reach h₄ a → a = 0 ∨ a = 2 := by
    intro a ha
    induction ha with
    | min ha =>
      rw [hmin₄] at ha
      cases ha
      exact .inr rfl
    | right _ ih => rcases ih with rfl | rfl <;> simp [hright₀, hright₂]
    | child _ hb ih => rcases ih with rfl | rfl <;> simp_all
  have hpop₄ : Sparing h₄ .pop := fun a ha _ => by
    rcases hleft a ha with rfl | rfl
    · rw [hdata₀]
      exact Option.some_ne_none 3
    · rw [hdata₂]
      exact Option.some_ne_none 2
  obtain ⟨hcounts₄, -, hall⟩ := fibonacciHeap_counts hc (.step hrun₃ hpop hrun₄)
  obtain ⟨h₅, hrun₅⟩ := hall hpop₄
  rw [hn₄] at hrun₅
  exact ⟨h₁, h₂, h₃, h₄, h₅, hput₁, hput₂, hput₃, hcounts₃, hn₃, hrun₄, hcounts₄, hn₄, hrun₅⟩

/-- **A node is lost.** With payloads 1 and `NULL`, which is greater, one pop leaves size 1 and no
node, and popping while the size is positive never ends. -/
theorem fibonacciHeap_loses_null :
    let cmp : Option ℤ → Option ℤ → ℤ := fun p q => p.getD 9 - q.getD 9
    IsComparator cmp ∧ ∃ h₁ h₂ h₃, anyStep cmp createFibonacciHeap (.put (some 1)) = some h₁ ∧
      anyStep cmp h₁ (.put none) = some h₂ ∧ anyStep cmp h₂ .pop = some h₃ ∧
      h₃.n = 1 ∧ h₃.min = none ∧ (∀ a, ¬Reach h₃ a) ∧ ∀ fuel, popAll cmp fuel h₃ = none := by
  intro cmp
  have hc : IsComparator cmp := ⟨fun p q => subtract_isComparator.neg_iff _ _,
    fun hpq hqr => subtract_isComparator.le_trans hpq hqr⟩
  obtain ⟨h₁, h₂, h₃, hput, hput', hpop, hn, hmin⟩ : ∃ h₁ h₂ h₃,
      anyStep cmp createFibonacciHeap (.put (some 1)) = some h₁ ∧
      anyStep cmp h₁ (.put none) = some h₂ ∧ anyStep cmp h₂ .pop = some h₃ ∧
      h₃.n = 1 ∧ h₃.min = none := ⟨_, _, _, rfl, rfl, rfl, rfl, rfl⟩
  refine ⟨hc, h₁, h₂, h₃, hput, hput', hpop, hn, hmin, fun a ha => ?_, fun fuel => ?_⟩
  · induction ha with
    | min hmin' =>
      rw [hmin] at hmin'
      cases hmin'
    | right _ ih => exact ih
    | child _ _ ih => exact ih
  · induction fuel with
    | zero => rfl
    | succ fuel ih =>
      have hstep : anyStep cmp h₃ .pop = some h₃ := by
        rw [anyStep, fibonacciHeapPop, hmin]
        rfl
      rw [popAll, if_neg (show ¬fibonacciHeapSize h₃ = 0 by rw [fibonacciHeapSize, hn]; decide),
        hstep]
      exact ih

end Heap

end OvaLib
