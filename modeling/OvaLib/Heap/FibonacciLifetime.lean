import OvaLib.Heap.FibonacciNull
import OvaLib.Lifetime

/-!
# What a Fibonacci heap has allocated

The same functions with the blocks they allocate and free. A node is allocated by a put and freed by
the pop that takes it out; `free_fib_node`, which `fibonacci_heap_clear` and `fibonacci_heap_free`
call, walks the rings of siblings and frees each node after its children.

## The contract

Payloads belong to the caller and are never freed. The heap owns its nodes, the struct of the
methods and the struct behind `impl`. A call that finds no memory returns a code or `NULL` and holds
no more than before; when the heap is freed nothing is held any more.

## What is accounted for

The blocks held are a finite set, and freeing a block that is not in it has no result. So a double
free, or the free of something that was never allocated, would show as a call that does not return.
`free_fib_node` reads the right and child fields of a node when it comes to it, before it frees
anything of what is below, and the model has these reads ask that the node is held.

For the other calls the accounting is by the invariant: every pointer field of a held node leads to
a held node, and the functions follow such fields only.

## Scope

Allowed calls in any order, with any allocations failing. A handle is live as long as its node has
not been taken out; using one afterwards is not allowed, and nothing is said about it.

## Main results

* `consumes_freeFibNode` — `free_fib_node` frees a forest of rings
* `fibCall_spec` — the blocks held are those of the nodes, after every call
* `fibonacciHeap_frees` — nothing is leaked, freed twice or read once freed
-/

namespace OvaLib

namespace Heap

open Foundation

variable {α : Type*}

/-! ## Freeing

By induction on the fuel, over what is left of a ring from the current node on. The nodes of a
forest in the order in which they are freed are its post-order. -/

namespace FibNodes

/-- `free_fib_node`, from `cur` on; reading through a pointer reads a block that must be held. -/
def freeFibNode (m : FibNodes) : ℕ → Addr → Addr → Freeing Allocation
  | 0, _, _ => fun _ => none
  | fuel + 1, node, cur =>
    reading (.node cur) (andThen
      (match m.child cur with
        | none => some
        | some child => m.freeFibNode fuel child child)
      (andThen (release (.node cur))
        (if m.right cur = node then some else m.freeFibNode fuel node (m.right cur))))

variable {m : FibNodes} {R : Option Addr → List Addr} {nodes : Finset Addr}

/-- The node after one of a ring read from `node` on. -/
theorem right_of_ring {s rest : List Addr} {cur node : Addr}
    (hring : IsRing m.toDll (s ++ cur :: rest)) (hhead : (s ++ cur :: rest).head? = some node) :
    m.right cur = (rest ++ [node]).headI := by
  have hrot : IsRing m.toDll (cur :: (rest ++ s)) := hring.rotate
  cases rest with
  | cons d rest => exact hrot.right_head
  | nil =>
    cases s with
    | nil =>
      obtain rfl : cur = node := Option.some.inj hhead
      exact (isRing_singleton.mp hrot).1
    | cons a s =>
      obtain rfl : a = node := Option.some.inj hhead
      exact hrot.right_head

/-- **`free_fib_node` frees what is left of a ring**, each node after its children. -/
theorem consumes_freeFibNode (h : Shape m R nodes) {order : Addr → List Addr}
    (horder : ∀ a, order a = (R (some a)).flatMap order ++ [a]) {fuel : ℕ} {o : Option Addr}
    {s rest : List Addr} {cur node : Addr} (ho : R o = s ++ cur :: rest)
    (hhead : (R o).head? = some node) (hfuel : ((cur :: rest).flatMap order).length ≤ fuel) :
    Consumes (m.freeFibNode fuel node cur) (((cur :: rest).flatMap order).map .node) := by
  induction fuel generalizing o s rest cur node with
  | zero =>
    rw [List.flatMap_cons, horder] at hfuel
    simp only [List.length_append, List.length_singleton] at hfuel
    omega
  | succ fuel ih =>
    have hcur : cur ∈ nodes := h.forest.mem (ho ▸ List.mem_append_right _ List.mem_cons_self)
    rw [List.flatMap_cons, horder, List.append_assoc] at hfuel ⊢
    simp only [List.length_append, List.length_singleton] at hfuel
    rw [List.map_append, List.map_append, FibNodes.freeFibNode]
    refine Consumes.reading ?_ (by simp)
    refine Consumes.andThen ?_ ((consumes_release _).andThen ?_)
    · rw [h.child cur hcur]
      cases hchildren : R (some cur) with
      | nil => exact consumes_skip
      | cons c t =>
        rw [hchildren] at hfuel
        exact ih (s := []) hchildren (by rw [hchildren]; rfl) (by omega)
    · rw [ho] at hhead
      rw [right_of_ring (ho ▸ h.ring o) hhead]
      cases rest with
      | nil =>
        rw [List.nil_append, List.headI_cons, if_pos rfl]
        exact consumes_skip
      | cons d rest =>
        have hne : d ≠ node := by
          rintro rfl
          have hnodup := h.forest.nodup o
          rw [ho] at hnodup
          cases s with
          | nil =>
            obtain rfl : cur = d := Option.some.inj hhead
            exact (List.nodup_cons.mp hnodup).1 List.mem_cons_self
          | cons a s =>
            obtain rfl : a = d := Option.some.inj hhead
            exact (List.nodup_cons.mp hnodup).1 (by simp)
        rw [List.cons_append, List.headI_cons, if_neg hne]
        refine ih (o := o) (s := s ++ [cur]) ?_ (ho ▸ hhead) (by omega)
        rw [ho, List.append_assoc]
        rfl

end FibNodes

/-- What `fibonacci_heap_clear` and `fibonacci_heap_free` do with the nodes. -/
def freeNodes (h : FibHeap α) : Freeing Allocation :=
  match h.min with
  | none => some
  | some min => h.freeFibNode h.n min min

/-- `fibonacci_heap_free`. -/
def fibonacciHeapFree (h : FibHeap α) : Freeing Allocation :=
  andThen (freeNodes h) (andThen (release .impl) (release .object))

/-! ## The calls with their blocks

A new node is known by the address that was handed out for it. -/

/-- `create_fibonacci_heap`, with the blocks it holds when it returns. -/
def createWithBlocks (a : Allocator) :
    Option (FibHeap α) × Option (Finset Allocation) × Allocator :=
  let (ok, held, a) := allocPair .impl .object a
  (if ok then some createFibonacciHeap else none, held, a)

/-- A heap, what it answered, the blocks it holds, and the allocator after the call. -/
structure Outcome (α : Type*) where
  heap : FibHeap α
  answer : Answer α
  held : Finset Allocation
  allocator : Allocator

/-- A call, where any allocation may fail, with the blocks held before and after. -/
def fibCall (cmp : Option α → Option α → ℤ) (a : Allocator) (h : FibHeap α)
    (held : Finset Allocation) : Call α → Option (Outcome α)
  | .put item =>
    let (h', e, a') := fibonacciHeapPut cmp a h (some item)
    some ⟨h', .status e, handOut h.fresh h'.fresh held, a'⟩
  | .putWithHandle item =>
    let (h', node, a') := fibonacciHeapPutWithHandle cmp a h (some item)
    some ⟨h', .handle node, handOut h.fresh h'.fresh held, a'⟩
  | .decreaseKey nodeHandle newValue =>
    (fibonacciHeapDecreaseKey cmp (2 * h.n + 1) h (some nodeHandle) (some newValue)).map fun r =>
      ⟨r.1, .status r.2, held, a⟩
  | .deleteNode nodeHandle =>
    (fibonacciHeapDelete cmp (2 * h.n + 1) h (some nodeHandle)).bind fun r =>
      (release (.node nodeHandle) held).map fun held => ⟨r.1, .status r.2, held, a⟩
  | .pop =>
    (fibonacciHeapPop cmp (2 * h.n + 1) h).bind fun r =>
      ((h.min.elim some fun z => release (.node z)) held).map fun held =>
        ⟨r.1, .payload r.2, held, a⟩
  | .peek => some ⟨h, .payload (fibonacciHeapPeek h), held, a⟩
  | .size => some ⟨h, .count (fibonacciHeapSize h), held, a⟩
  | .clear => (freeNodes h held).map fun held => ⟨fibonacciHeapClear h, .done, held, a⟩

/-- The heaps that allowed calls lead to, whatever allocations fail, with the blocks they hold. -/
inductive Lives (cmp : Option α → Option α → ℤ) : FibHeap α → Finset Allocation → Prop
  | create {h : FibHeap α} {held : Finset Allocation} {a a' : Allocator}
      (hcreate : createWithBlocks a = (some h, some held, a')) : Lives cmp h held
  | call {h : FibHeap α} {held : Finset Allocation} {c : Call α} {a : Allocator} {r : Outcome α}
      (hh : Lives cmp h held) (hallowed : Allowed cmp (contents h) c)
      (hcall : fibCall cmp a h held c = some r) : Lives cmp r.heap r.held

/-! ## The invariant

The same invariant as for the calls without blocks, and one equation for what is held. -/

variable {cmp : Option α → Option α → ℤ} {h : FibHeap α} {R : Option Addr → List Addr}
  {nodes : Finset Addr} {held : Finset Allocation}

/-- **`free_fib_node` frees all nodes.** -/
theorem freeNodes_consumes (hs : Sound cmp h R nodes) :
    ∃ l : List Addr, Consumes (freeNodes h) (l.map .node) ∧ l.Nodup ∧ ∀ a, a ∈ l ↔ a ∈ nodes := by
  have hshape := hs.tidy.shape
  obtain ⟨order, horder, hnodup, hmem⟩ := hshape.forest.exists_postorder
  refine ⟨_, ?_, hnodup, hmem⟩
  rw [freeNodes, hs.head]
  cases hroots : R none with
  | nil => exact consumes_skip
  | cons c t =>
    have hlength : ((R none).flatMap order).length ≤ h.n := by
      rw [hs.size]
      exact length_le_card_of_nodup hnodup fun a ha => (hmem a).mp ha
    rw [hroots] at hlength
    exact FibNodes.consumes_freeFibNode hshape horder (s := []) hroots (by rw [hroots]; rfl) hlength

theorem freeNodes_eq (hs : Sound cmp h R nodes) :
    freeNodes h (allocationsOf nodes) = some (allocationsOf ∅) := by
  obtain ⟨l, hconsumes, hnodup, hmem⟩ := freeNodes_consumes hs
  exact allocationsOf_of_consumes hconsumes hnodup hmem

/-- A put takes one address. -/
theorem fibonacciHeapInsert_fresh (h : FibHeap α) (data : Option α) (node : Addr) :
    (fibonacciHeapInsert cmp (fibNodeCreate h data) node).fresh = h.fresh + 1 := by
  rw [fibonacciHeapInsert]
  split <;> rfl

/-- **One call** keeps the books. -/
theorem fibCall_spec (hc : IsComparator fun a b => cmp (some a) (some b))
    (hr : Represents cmp h R nodes) {c : Call α} (hallowed : Allowed cmp (contents h) c)
    (a : Allocator) :
    ∃ r R' nodes', fibCall cmp a h (allocationsOf nodes) c = some r ∧
      Represents cmp r.heap R' nodes' ∧ r.held = allocationsOf nodes' := by
  have hs := hr.toSound
  have hsize := hr.size
  cases c with
  | put item =>
    cases halloc : a.alloc.1 with
    | false =>
      refine ⟨⟨h, .status .errorMemory, allocationsOf nodes, a.alloc.2⟩, R, nodes, ?_, hr, rfl⟩
      rw [fibCall, fibonacciHeapPut, ← Prod.mk.eta (p := a.alloc), halloc]
      simp only [handOut_self]
    | true =>
      obtain ⟨h', R', hrun, hr', -, -⟩ := hr.put hc item hallowed
      refine ⟨⟨h', .status .success, allocationsOf (insert h.fresh nodes), a.alloc.2⟩, R', _, ?_,
        hr', rfl⟩
      rw [fibCall, fibonacciHeapPut, ← Prod.mk.eta (p := a.alloc), halloc]
      have hfresh : h'.fresh = h.fresh + 1 := by rw [← hrun, fibonacciHeapInsert_fresh]
      simp only [hrun, hfresh, handOut_succ, allocationsOf_insert]
  | putWithHandle item =>
    cases halloc : a.alloc.1 with
    | false =>
      refine ⟨⟨h, .handle none, allocationsOf nodes, a.alloc.2⟩, R, nodes, ?_, hr, rfl⟩
      rw [fibCall, fibonacciHeapPutWithHandle, ← Prod.mk.eta (p := a.alloc), halloc]
      simp only [handOut_self]
    | true =>
      obtain ⟨h', R', hrun, hr', -, -⟩ := hr.put hc item hallowed
      refine ⟨⟨h', .handle (some h.fresh), allocationsOf (insert h.fresh nodes), a.alloc.2⟩, R', _,
        ?_, hr', rfl⟩
      rw [fibCall, fibonacciHeapPutWithHandle, ← Prod.mk.eta (p := a.alloc), halloc]
      have hfresh : h'.fresh = h.fresh + 1 := by rw [← hrun, fibonacciHeapInsert_fresh]
      simp only [hrun, hfresh, handOut_succ, allocationsOf_insert]
  | decreaseKey x v =>
    obtain ⟨u, hu, hle⟩ := hallowed
    have hx := mem_of_contents hs (a := x) (by rw [hu]; simp)
    rw [contents_of_mem hs hx] at hu
    rw [← hu] at hle
    obtain ⟨h', R', hrun, hr', -⟩ :=
      fibonacciHeapDecreaseKey_spec hc hr hx hle (show nodes.card < 2 * h.n + 1 by omega)
    refine ⟨⟨h', .status .success, allocationsOf nodes, a⟩, R', nodes, ?_, hr', rfl⟩
    rw [fibCall, hrun]
    rfl
  | deleteNode x =>
    have hx := mem_of_contents hs hallowed
    obtain ⟨h', R', hrun, hr', -⟩ :=
      fibonacciHeapDelete_spec hc hr hx (show 2 * nodes.card < 2 * h.n + 1 by omega)
    refine ⟨⟨h', .status .success, allocationsOf (nodes.erase x), a⟩, R', _, ?_, hr', rfl⟩
    rw [fibCall, hrun, Option.bind_some, release_of_mem (node_mem_allocationsOf.mpr hx),
      allocationsOf_erase]
    rfl
  | pop =>
    cases hmin : h.min with
    | none =>
      refine ⟨⟨h, .payload none, allocationsOf nodes, a⟩, R, nodes, ?_, hr, rfl⟩
      rw [fibCall, fibonacciHeapPop, hmin]
      rfl
    | some z =>
      obtain ⟨h', R', hrun, hr', -, hz⟩ :=
        fibonacciHeapPop_spec hc hs hmin (show 2 * nodes.card ≤ 2 * h.n + 1 by omega)
      refine ⟨⟨h', .payload (h.data z), allocationsOf (nodes.erase z), a⟩, R', _, ?_, hr', rfl⟩
      rw [fibCall, hrun, Option.bind_some, hmin, Option.elim_some,
        release_of_mem (node_mem_allocationsOf.mpr hz), allocationsOf_erase]
      rfl
  | peek => exact ⟨_, R, nodes, rfl, hr, rfl⟩
  | size => exact ⟨_, R, nodes, rfl, hr, rfl⟩
  | clear =>
    refine ⟨⟨fibonacciHeapClear h, .done, allocationsOf ∅, a⟩, _, ∅, ?_,
      represents_empty rfl rfl, rfl⟩
    rw [fibCall, freeNodes_eq hs]
    rfl

theorem createWithBlocks_cases (a : Allocator) :
    (∃ a', createWithBlocks (α := α) a =
      (some createFibonacciHeap, some (allocationsOf ∅), a')) ∨
    ∃ a', createWithBlocks (α := α) a = (none, some ∅, a') := by
  rw [createWithBlocks]
  rcases allocPair_cases .impl .object a with ⟨a', hpair⟩ | ⟨a', hpair⟩
  · exact .inl ⟨a', by rw [hpair]; rfl⟩
  · exact .inr ⟨a', by rw [hpair]; rfl⟩

/-- **The blocks held are those of the nodes**, in every state. -/
theorem Lives.represents (hc : IsComparator fun a b => cmp (some a) (some b))
    (hh : Lives cmp h held) : ∃ R nodes, Represents cmp h R nodes ∧ held = allocationsOf nodes := by
  induction hh with
  | @create h held a a' hcreate =>
    refine ⟨_, ∅, represents_empty (h := h) ?_ ?_, ?_⟩
    all_goals
      rcases createWithBlocks_cases (α := α) a with ⟨_, hcase⟩ | ⟨_, hcase⟩
      · rw [hcreate, Prod.mk.injEq, Prod.mk.injEq, Option.some.injEq, Option.some.injEq] at hcase
        obtain ⟨rfl, rfl, -⟩ := hcase
        rfl
      · rw [hcreate, Prod.mk.injEq] at hcase
        cases hcase.1
  | call _ hallowed hcall ih =>
    obtain ⟨R, nodes, hr, rfl⟩ := ih
    obtain ⟨r, R', nodes', hcall', hr', hheld⟩ := fibCall_spec hc hr hallowed _
    rw [hcall] at hcall'
    cases hcall'
    exact ⟨R', nodes', hr', hheld⟩

/-- **Nothing is leaked, freed twice or read once freed.** A heap that cannot be created holds
nothing. Otherwise, after every run of allowed calls, whatever allocations fail: the nodes held are
those that can be reached, as many as the size says; each of their pointer fields leads to a node
that is held; every allowed call ends, freeing only what is held; and `fibonacci_heap_free`
ends with nothing held. -/
theorem fibonacciHeap_frees (hc : IsComparator fun a b : α => cmp (some a) (some b)) :
    (∀ a, (createWithBlocks (α := α) a).1 = none → (createWithBlocks (α := α) a).2.1 = some ∅) ∧
    ∀ (h : FibHeap α) (held : Finset Allocation), Lives cmp h held →
      (∀ a, .node a ∈ held ↔ Reach h a) ∧ held.card = h.n + 2 ∧
      (∀ a, .node a ∈ held → .node (h.left a) ∈ held ∧ .node (h.right a) ∈ held ∧
        (∀ b, h.child a = some b → .node b ∈ held) ∧
        ∀ b, h.parent a = some b → .node b ∈ held) ∧
      (∀ c a, Allowed cmp (contents h) c → ∃ r, fibCall cmp a h held c = some r) ∧
      fibonacciHeapFree h held = some ∅ := by
  refine ⟨fun a hnone => ?_, fun h held hh => ?_⟩
  · rcases createWithBlocks_cases (α := α) a with ⟨a', hcase⟩ | ⟨a', hcase⟩
    · rw [hcase] at hnone
      cases hnone
    · rw [hcase]
  · obtain ⟨R, nodes, hr, rfl⟩ := hh.represents hc
    have hs := hr.toSound
    have hshape := hs.tidy.shape
    have hclosed := hshape.closed
    simp only [node_mem_allocationsOf]
    refine ⟨fun a => (reach_iff hs a).symm, ?_, fun a ha => ?_, fun c a hallowed => ?_, ?_⟩
    · rw [card_allocationsOf, hs.size]
    · refine ⟨hclosed.left ha, hclosed.right ha, fun b hb => hclosed.child ha hb, fun b hb => ?_⟩
      obtain ⟨o, ho⟩ := hshape.forest.mem_iff.mp ha
      rw [hshape.parent ho] at hb
      subst hb
      exact hshape.forest.owner_mem ho
    · obtain ⟨r, -, -, hcall, -⟩ := fibCall_spec hc hr hallowed a
      exact ⟨r, hcall⟩
    · rw [fibonacciHeapFree, andThen, freeNodes_eq hs, Option.bind_some, release_object]

/-- Payloads put into a new heap are at the addresses from 0 on. -/
theorem lives_putAll (hc : IsComparator fun a b => cmp (some a) (some b)) (items : List α)
    (hlen : items.length ≤ intMax) :
    Lives cmp (putAll cmp items) (allocationsOf (Finset.range items.length)) ∧
      (putAll cmp items).fresh = items.length := by
  induction items using List.reverseRecOn with
  | nil => exact ⟨.create (a := .always) rfl, rfl⟩
  | append_singleton items item ih =>
    rw [List.length_append, List.length_singleton] at hlen ⊢
    obtain ⟨hh, hfresh⟩ := ih (by omega)
    have hallowed : Allowed cmp (contents (putAll cmp items)) (.put item) :=
      (reachable_putAll hc items (by omega)).allowed_put hc (by rw [putAll_n]; omega) item
    have hfresh' : (putAll cmp (items ++ [item])).fresh = items.length + 1 := by
      rw [putAll_concat, ← hfresh]
      exact fibonacciHeapInsert_fresh _ _ _
    have hheld : handOut (putAll cmp items).fresh (putAll cmp (items ++ [item])).fresh
        (allocationsOf (Finset.range items.length)) =
        allocationsOf (Finset.range (items.length + 1)) := by
      rw [hfresh, hfresh', handOut_succ, allocationsOf_insert, Finset.range_add_one]
    have hlives := hh.call hallowed (a := .always) rfl
    refine ⟨?_, hfresh'⟩
    rw [← hheld, putAll_concat]
    exact hlives

/-- Payloads 3, 1, 2 and 4 at the addresses 0 to 3. The pop frees the node of 1, the next call that
of 3; a put that finds no memory holds nothing, and `fibonacci_heap_free` frees the rest. -/
theorem fibonacciHeap_frees_subtract :
    let cmp : Option ℤ → Option ℤ → ℤ := fun a b => a.getD 0 - b.getD 0
    let h := putAll cmp [3, 1, 2, 4]
    ∃ r₁ r₂ r₃, fibCall cmp .always h (allocationsOf {0, 1, 2, 3}) .pop = some r₁ ∧
      r₁.held = allocationsOf {0, 2, 3} ∧
      fibCall cmp .always r₁.heap r₁.held (.deleteNode 0) = some r₂ ∧
      r₂.held = allocationsOf {2, 3} ∧
      fibCall cmp ⟨fun _ => false⟩ r₂.heap r₂.held (.put 9) = some r₃ ∧
      r₃.answer = .status .errorMemory ∧ r₃.held = allocationsOf {2, 3} ∧
      (∀ a, .node a ∈ r₃.held ↔ Reach r₃.heap a) ∧ fibonacciHeapFree r₃.heap r₃.held = some ∅ := by
  intro cmp h
  have hc : IsComparator fun a b : ℤ => cmp (some a) (some b) := subtract_isComparator
  have hcall : ∀ {h : FibHeap ℤ} {held}, Lives cmp h held → ∀ c a,
      Allowed cmp (contents h) c → ∃ r, fibCall cmp a h held c = some r :=
    fun {h held} hh => ((fibonacciHeap_frees hc).2 h held hh).2.2.2.1
  have hh : Lives cmp h (allocationsOf {0, 1, 2, 3}) :=
    (lives_putAll hc [3, 1, 2, 4] (by decide)).1
  obtain ⟨r₁, hrun₁⟩ := hcall hh .pop .always trivial
  have hh₁ := hh.call (show Allowed cmp (contents h) .pop from trivial) hrun₁
  have hpop : (fibCall cmp .always h (allocationsOf {0, 1, 2, 3}) .pop).map
      (fun r => (r.heap.min, r.heap.right 2, r.heap.data 0, r.held)) =
      some (some 2, 0, some 3, allocationsOf {0, 2, 3}) := by decide +kernel
  rw [hrun₁] at hpop
  simp only [Option.map_some, Option.some.injEq, Prod.mk.injEq] at hpop
  obtain ⟨hmin, hright, hdata, hheld₁⟩ := hpop
  have hhandle : contents r₁.heap 0 = some 3 :=
    (if_pos (hright ▸ Reach.right (.min hmin))).trans hdata
  have hallowed : Allowed cmp (contents r₁.heap) (.deleteNode 0) := by
    rw [Allowed, hhandle]
    exact Option.some_ne_none 3
  obtain ⟨r₂, hrun₂⟩ := hcall hh₁ (.deleteNode 0) .always hallowed
  have hh₂ := hh₁.call hallowed hrun₂
  have hdelete : ((fibCall cmp .always h (allocationsOf {0, 1, 2, 3}) .pop).bind
      fun r => (fibCall cmp .always r.heap r.held (.deleteNode 0)).map
        fun r => (r.heap.n, r.held)) = some (2, allocationsOf {2, 3}) := by decide +kernel
  rw [hrun₁, Option.bind_some, hrun₂] at hdelete
  simp only [Option.map_some, Option.some.injEq, Prod.mk.injEq] at hdelete
  obtain ⟨hn, hheld₂⟩ := hdelete
  have hroom : Allowed cmp (contents r₂.heap) (.put 9) := by
    obtain ⟨R, nodes, hr, -⟩ := hh₂.represents hc
    show (support (contents r₂.heap)).ncard < intMax
    rw [ncard_support_contents hr.toSound, hn]
    decide
  obtain ⟨r₃, hrun₃⟩ := hcall hh₂ (.put 9) ⟨fun _ => false⟩ hroom
  obtain ⟨hnodes, -, -, -, hfree⟩ := (fibonacciHeap_frees hc).2 _ _ (hh₂.call hroom hrun₃)
  refine ⟨r₁, r₂, r₃, hrun₁, hheld₁, hrun₂, hheld₂, hrun₃, ?_, ?_, hnodes, hfree⟩
  all_goals
    have hfail : some r₃ = some ⟨r₂.heap, .status .errorMemory,
      handOut r₂.heap.fresh r₂.heap.fresh r₂.held, ⟨fun _ => false⟩⟩ := hrun₃.symm
    cases hfail
  · rfl
  · rw [handOut_self, hheld₂]

end Heap

end OvaLib
