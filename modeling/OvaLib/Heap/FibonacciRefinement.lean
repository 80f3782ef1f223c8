import OvaLib.Foundation.FiniteMap
import OvaLib.Heap.FibonacciOperations

/-!
# The Fibonacci heap is a priority queue

What a heap stores is read off its memory: `contents h` binds the addresses that can be reached from
`h->min` by right and child fields to their payloads. Every call acts on these bindings as a
priority queue with handles does, and nothing else is ever lost or repeated.

## The abstract queue

A priority queue with handles is a finite partial map from handles to payloads. A put binds a handle
that was not bound; which one is not prescribed. `decrease_key` rebinds a handle, `delete_node`
unbinds one, and a pop unbinds some handle whose payload is minimal. Among several minimal payloads
any may come first, and the queue does not remember which was put earlier. `Effect` is this relation
between the bindings before a call, the call, its answer, and the bindings afterwards.

The bindings of a heap are defined by reachability, so they are what a traversal would find. A node
that has fallen out of every ring is not in them, whatever the size says; that the size is their
number is part of the theorem.

## Which calls are allowed

`heap.h` requires a handle that `put_with_handle` returned, and a new value that increases the
priority. For a handle to be live is for it to be bound. There is one more condition: the size is an
`int`, and nothing in the code keeps it from wrapping, so a put needs room for one more. Payloads
are not `NULL`; `NULL` payloads are another matter.

## How the proof goes

Every reachable heap satisfies the invariant `Represents` for some forest. One lemma for a call,
`fibStep_spec`, gives the state after it, with the invariant and the effect; the run lemma is an
induction over `Reachable`. The link between the two layers is `reach_iff`: under the invariant the
nodes that can be reached are the nodes of the forest, so that bindings can be read off the forest,
where the lemmas about the operations say what has changed.

## Main results

* `reach_iff` — what can be reached is what the invariant says is stored
* `fibStep_spec` — one call
* `fibonacciHeap_refines` — every reachable state, and every call on it
-/

namespace OvaLib

namespace Heap

open Foundation

variable {α : Type*} {cmp : Option α → Option α → ℤ}

variable {h : FibHeap α} {R : Option Addr → List Addr} {nodes : Finset Addr}

/-! ## What is stored

The forest is existential in the invariant, and the bindings do not depend on it. -/

/-- The addresses a traversal from `h->min` meets. Left and parent fields are not followed: where
the invariant holds they lead to nothing new. -/
inductive Reach (h : FibHeap α) : Addr → Prop
  | min {a : Addr} (hmin : h.min = some a) : Reach h a
  | right {a : Addr} (ha : Reach h a) : Reach h (h.right a)
  | child {a b : Addr} (ha : Reach h a) (hb : h.child a = some b) : Reach h b

open Classical in
/-- **The bindings of the heap**: each address it stores, and the payload there. -/
noncomputable def contents (h : FibHeap α) (a : Addr) : Option α :=
  if Reach h a then h.data a else none

theorem reach_of_ring {l : List Addr} (hring : IsRing h.toDll l)
    (hhead : ∀ a ∈ l.head?, Reach h a) : ∀ a ∈ l, Reach h a :=
  hring.forall_of_right hhead fun _ => .right

/-- **What can be reached is what is stored.** One direction walks along rings and down children,
the other is an induction on the reachability; the invariant is used in both. -/
theorem reach_iff (hs : Sound cmp h R nodes) (a : Addr) : Reach h a ↔ a ∈ nodes := by
  have hshape := hs.tidy.shape
  constructor
  · intro ha
    induction ha with
    | min hmin =>
      rw [hs.head] at hmin
      exact hshape.forest.mem (List.mem_of_head? hmin)
    | right _ ih =>
      obtain ⟨o, ho⟩ := hshape.forest.mem_iff.mp ih
      exact hshape.forest.mem (hshape.rings.neighbours ho).1.1
    | child _ hb ih =>
      rw [hshape.child _ ih] at hb
      exact hshape.forest.mem (List.mem_of_head? hb)
  · refine hshape.forest.induction (reach_of_ring (hshape.ring none) fun b hb => ?_) ?_ a
    · exact .min (hs.head.trans hb)
    · exact fun b hb hreach => reach_of_ring (hshape.ring (some b)) fun c hc =>
        hreach.child ((hshape.child b hb).trans hc)

theorem contents_of_mem (hs : Sound cmp h R nodes) {a : Addr} (ha : a ∈ nodes) :
    contents h a = h.data a :=
  if_pos ((reach_iff hs a).mpr ha)

theorem contents_of_notMem (hs : Sound cmp h R nodes) {a : Addr} (ha : a ∉ nodes) :
    contents h a = none :=
  if_neg fun hreach => ha ((reach_iff hs a).mp hreach)

theorem mem_of_contents (hs : Sound cmp h R nodes) {a : Addr} (ha : contents h a ≠ none) :
    a ∈ nodes := by
  by_contra hmem
  exact ha (contents_of_notMem hs hmem)

theorem support_contents (hs : Sound cmp h R nodes) :
    support (contents h) = (nodes : Set Addr) := by
  ext a
  rw [support, Set.mem_ofPred_eq, Finset.mem_coe]
  constructor
  · intro ha
    exact mem_of_contents hs (Option.isSome_iff_ne_none.mp ha)
  · intro ha
    obtain ⟨v, hv⟩ := hs.payload a ha
    rw [contents_of_mem hs ha, hv]
    rfl

theorem ncard_support_contents (hs : Sound cmp h R nodes) :
    (support (contents h)).ncard = h.n := by
  rw [support_contents hs, Set.ncard_coe_finset, hs.size]

/-- Bindings that change at one address. -/
theorem contents_update {h' : FibHeap α} {R' : Option Addr → List Addr} {nodes' : Finset Addr}
    (hs : Sound cmp h R nodes) (hs' : Sound cmp h' R' nodes') {x : Addr} {p : Option α}
    (hmem : ∀ a ≠ x, a ∈ nodes' ↔ a ∈ nodes) (hdata : ∀ a ≠ x, h'.data a = h.data a)
    (hx : contents h' x = p) : contents h' = Function.update (contents h) x p := by
  funext a
  by_cases hax : a = x
  · rw [hax, Function.update_self, hx]
  · rw [Function.update_of_ne hax]
    by_cases ha : a ∈ nodes
    · rw [contents_of_mem hs ha, contents_of_mem hs' ((hmem a hax).mpr ha), hdata a hax]
    · rw [contents_of_notMem hs ha, contents_of_notMem hs' fun ha' => ha ((hmem a hax).mp ha')]

/-! ## Every run

The calls, what they should do, and the states they lead to; then the lemma about one call, the
invariant of all reachable states, and the theorem. -/

/-- A call with a non-`NULL` payload. The handle of a node is its address, as it is in the source.
-/
inductive Call (α : Type*)
  | put (item : α)
  | putWithHandle (item : α)
  | decreaseKey (nodeHandle : Addr) (newValue : α)
  | deleteNode (nodeHandle : Addr)
  | pop
  | peek
  | size
  | clear

/-- What a call returns. -/
inductive Answer (α : Type*)
  | status (e : ErrorCode)
  | handle (node : Option Addr)
  | payload (data : Option α)
  | count (n : ℕ)
  | done
  deriving DecidableEq

/-- The model's step; every allocation succeeds. -/
def fibStep (cmp : Option α → Option α → ℤ) (h : FibHeap α) : Call α → Option (FibHeap α × Answer α)
  | .put item =>
    let (h, e, _) := fibonacciHeapPut cmp .always h (some item)
    some (h, .status e)
  | .putWithHandle item =>
    let (h, node, _) := fibonacciHeapPutWithHandle cmp .always h (some item)
    some (h, .handle node)
  | .decreaseKey nodeHandle newValue =>
    (fibonacciHeapDecreaseKey cmp (2 * h.n + 1) h (some nodeHandle) (some newValue)).map fun r =>
      (r.1, .status r.2)
  | .deleteNode nodeHandle =>
    (fibonacciHeapDelete cmp (2 * h.n + 1) h (some nodeHandle)).map fun r => (r.1, .status r.2)
  | .pop => (fibonacciHeapPop cmp (2 * h.n + 1) h).map fun r => (r.1, .payload r.2)
  | .peek => some (h, .payload (fibonacciHeapPeek h))
  | .size => some (h, .count (fibonacciHeapSize h))
  | .clear => some (fibonacciHeapClear h, .done)

/-- The calls the heap is for: live handles, keys that do not increase, and room for one more. It is
a condition on the bindings alone, which is all that a caller can know. -/
def Allowed (cmp : Option α → Option α → ℤ) (M : Addr → Option α) : Call α → Prop
  | .put _ | .putWithHandle _ => (support M).ncard < intMax
  | .decreaseKey nodeHandle newValue =>
    ∃ v, M nodeHandle = some v ∧ cmp (some newValue) (some v) ≤ 0
  | .deleteNode nodeHandle => M nodeHandle ≠ none
  | .pop | .peek | .size | .clear => True

/-- No stored payload compares below `v`. There may be others that compare as equal. -/
def Minimal (cmp : Option α → Option α → ℤ) (M : Addr → Option α) (v : α) : Prop :=
  ∀ a w, M a = some w → ¬cmp (some w) (some v) < 0

/-- **What a call does** on a priority queue with handles: which answers it may give, and which
bindings may be there afterwards. A put chooses a handle that is not in use, and a pop one of the
minima; apart from these two choices it is a function. -/
inductive Effect (cmp : Option α → Option α → ℤ) (M : Addr → Option α) :
    Call α → Answer α → (Addr → Option α) → Prop
  | put {a : Addr} {item : α} (ha : M a = none) :
      Effect cmp M (.put item) (.status .success) (Function.update M a (some item))
  | putWithHandle {a : Addr} {item : α} (ha : M a = none) :
      Effect cmp M (.putWithHandle item) (.handle (some a)) (Function.update M a (some item))
  | decreaseKey {a : Addr} {v : α} :
      Effect cmp M (.decreaseKey a v) (.status .success) (Function.update M a (some v))
  | deleteNode {a : Addr} :
      Effect cmp M (.deleteNode a) (.status .success) (Function.update M a none)
  | pop {a : Addr} {v : α} (ha : M a = some v) (hmin : Minimal cmp M v) :
      Effect cmp M .pop (.payload (some v)) (Function.update M a none)
  | popEmpty (hM : ∀ a, M a = none) : Effect cmp M .pop (.payload none) M
  | peek {a : Addr} {v : α} (ha : M a = some v) (hmin : Minimal cmp M v) :
      Effect cmp M .peek (.payload (some v)) M
  | peekEmpty (hM : ∀ a, M a = none) : Effect cmp M .peek (.payload none) M
  | size : Effect cmp M .size (.count (support M).ncard) M
  | clear : Effect cmp M .clear .done fun _ => none

/-- The heaps that allowed calls lead to. Each step asks that the call returns; that it does is part
of what is proved of every reachable heap. -/
inductive Reachable (cmp : Option α → Option α → ℤ) : FibHeap α → Prop
  | create : Reachable cmp createFibonacciHeap
  | step {h h' : FibHeap α} {call : Call α} {answer : Answer α} (hh : Reachable cmp h)
      (hallowed : Allowed cmp (contents h) call) (hstep : fibStep cmp h call = some (h', answer)) :
      Reachable cmp h'

/-- An empty forest. -/
theorem represents_empty {h : FibHeap α} (hmin : h.min = none) (hn : h.n = 0) :
    Represents cmp h (fun _ => []) ∅ where
  tidy :=
    { shape :=
        { forest := ⟨⟨fun _ => List.nodup_nil, by simp⟩, by simp, by simp, fun _ => 0, by simp⟩
          ring := fun _ => trivial
          parent := by simp
          child := by simp
          degree := by simp }
      markThin := fun a i b hi => by simp at hi
      ordered := by simp [FibNodes.Ordered] }
  payload := by simp
  head := hmin
  size := hn
  fresh := by simp
  card_le := Nat.zero_le _
  min_le := by simp

/-- The root in front holds a minimal payload. -/
theorem Represents.minimal (hc : IsComparator fun a b => cmp (some a) (some b))
    (hr : Represents cmp h R nodes) {c : Addr} (hmin : h.min = some c) :
    ∃ v, h.data c = some v ∧ contents h c = some v ∧ Minimal cmp (contents h) v := by
  have hcmem : c ∈ nodes := (reach_iff hr.toSound c).mp (.min hmin)
  obtain ⟨v, hv⟩ := hr.payload c hcmem
  refine ⟨v, hv, by rw [contents_of_mem hr.toSound hcmem, hv], fun a w ha => ?_⟩
  have hamem := mem_of_contents hr.toSound (by rw [ha]; nofun)
  have hle := hr.min_le c hmin a hamem
  rw [contents_of_mem hr.toSound hamem] at ha
  rw [hv, ha] at hle
  exact not_lt.mpr (hc.nonneg_of_le hle)

theorem contents_of_min_none (hr : Represents cmp h R nodes) (hmin : h.min = none) (a : Addr) :
    contents h a = none := by
  refine contents_of_notMem hr.toSound fun ha => ?_
  obtain ⟨c, t, hroots⟩ := exists_root hr.tidy.shape.forest ha
  have hhead := hr.head
  rw [hmin, hroots] at hhead
  cases hhead

/-- A payload is put under the next address. Memory that was freed is not used again in the model,
so the handle of a node that is gone never becomes that of another one. -/
theorem Represents.put (hc : IsComparator fun a b => cmp (some a) (some b))
    (hr : Represents cmp h R nodes) (item : α) (hroom : (support (contents h)).ncard < intMax) :
    ∃ h' R', fibonacciHeapInsert cmp (fibNodeCreate h (some item)) h.fresh = h' ∧
      Represents cmp h' R' (insert h.fresh nodes) ∧ contents h h.fresh = none ∧
      contents h' = Function.update (contents h) h.fresh (some item) := by
  have hs := hr.toSound
  rw [ncard_support_contents hs, hr.size] at hroom
  obtain ⟨h', R', hrun, hr', hdata, hnew⟩ := fibonacciHeapInsert_spec hc hr item hroom
  refine ⟨h', R', hrun, hr', contents_of_notMem hs hnew,
    contents_update hs hr'.toSound (fun a ha => ?_) (fun a ha => ?_) ?_⟩
  · rw [Finset.mem_insert]
    exact or_iff_right ha
  · rw [hdata, Function.update_of_ne ha]
  · rw [contents_of_mem hr'.toSound (Finset.mem_insert_self _ _), hdata, Function.update_self]

/-- A node is taken out, and the payloads stay where they are. -/
theorem contents_erase (hs : Sound cmp h R nodes) {h' : FibHeap α} {R' : Option Addr → List Addr}
    {x : Addr} (hr' : Represents cmp h' R' (nodes.erase x)) (hdata : h'.data = h.data) :
    contents h' = Function.update (contents h) x none :=
  contents_update hs hr'.toSound (fun a ha => by rw [Finset.mem_erase]; exact and_iff_right ha)
    (fun a _ => by rw [hdata]) (contents_of_notMem hr'.toSound (Finset.notMem_erase _ _))

/-- The node a call takes out. -/
def takenOut (h : FibHeap α) : Call α → Option Addr
  | .pop => h.min
  | .deleteNode x => some x
  | _ => none

/-- **One call**; it takes out the one node it is meant to. The invariant afterwards is for some
forest, and the effect is on the bindings, so a run needs to know nothing of forests. -/
theorem fibStep_spec (hc : IsComparator fun a b => cmp (some a) (some b))
    (hr : Represents cmp h R nodes) {call : Call α} (hallowed : Allowed cmp (contents h) call) :
    ∃ h' answer R' nodes', fibStep cmp h call = some (h', answer) ∧
      Effect cmp (contents h) call answer (contents h') ∧ Represents cmp h' R' nodes' ∧
      (call ≠ .clear → ∀ a ∈ nodes, takenOut h call ≠ some a → a ∈ nodes') := by
  have hs := hr.toSound
  have hsize := hr.size
  have herase : ∀ {x : Addr}, ∀ a ∈ nodes, some x ≠ some a → a ∈ nodes.erase x :=
    fun a ha hax => Finset.mem_erase.mpr ⟨fun heq => hax (by rw [heq]), ha⟩
  cases call with
  | put item =>
    obtain ⟨h', R', hrun, hr', hfree, hcontents⟩ := hr.put hc item hallowed
    refine ⟨h', .status .success, R', _, ?_, hcontents ▸ .put hfree, hr',
      fun _ a ha _ => Finset.mem_insert_of_mem ha⟩
    simp only [fibStep, fibonacciHeapPut, Allocator.alloc_always, hrun]
  | putWithHandle item =>
    obtain ⟨h', R', hrun, hr', hfree, hcontents⟩ := hr.put hc item hallowed
    refine ⟨h', .handle (some h.fresh), R', _, ?_, hcontents ▸ .putWithHandle hfree, hr',
      fun _ a ha _ => Finset.mem_insert_of_mem ha⟩
    simp only [fibStep, fibonacciHeapPutWithHandle, Allocator.alloc_always, hrun]
  | decreaseKey x v =>
    obtain ⟨u, hu, hle⟩ := hallowed
    have hx := mem_of_contents hs (a := x) (by rw [hu]; nofun)
    rw [contents_of_mem hs hx] at hu
    rw [← hu] at hle
    obtain ⟨h', R', hrun, hr', hdata⟩ :=
      fibonacciHeapDecreaseKey_spec hc hr hx hle (show nodes.card < 2 * h.n + 1 by omega)
    have hcontents : contents h' = Function.update (contents h) x (some v) := by
      refine contents_update hs hr'.toSound (fun a _ => Iff.rfl) (fun a ha => ?_) ?_
      · rw [hdata, Function.update_of_ne ha]
      · rw [contents_of_mem hr'.toSound hx, hdata, Function.update_self]
    exact ⟨h', .status .success, R', nodes, by simp only [fibStep, hrun, Option.map_some],
      hcontents ▸ .decreaseKey, hr', fun _ a ha _ => ha⟩
  | deleteNode x =>
    have hx := mem_of_contents hs hallowed
    obtain ⟨h', R', hrun, hr', hdata⟩ :=
      fibonacciHeapDelete_spec hc hr hx (show 2 * nodes.card < 2 * h.n + 1 by omega)
    exact ⟨h', .status .success, R', _, by simp only [fibStep, hrun, Option.map_some],
      contents_erase hs hr' hdata ▸ .deleteNode, hr', fun _ => herase⟩
  | pop =>
    cases hmin : h.min with
    | none =>
      refine ⟨h, .payload none, R, nodes, ?_, .popEmpty (contents_of_min_none hr hmin), hr,
        fun _ a ha _ => ha⟩
      simp only [fibStep, fibonacciHeapPop, hmin, Option.map_some]
    | some z =>
      obtain ⟨v, hv, hz, hminimal⟩ := hr.minimal hc hmin
      obtain ⟨h', R', hrun, hr', hdata, -⟩ :=
        fibonacciHeapPop_spec hc hs hmin (show 2 * nodes.card ≤ 2 * h.n + 1 by omega)
      exact ⟨h', .payload (some v), R', _, by simp only [fibStep, hrun, Option.map_some, hv],
        contents_erase hs hr' hdata ▸ .pop hz hminimal, hr',
        fun _ a ha hza => herase a ha (hmin ▸ hza)⟩
  | peek =>
    cases hmin : h.min with
    | none =>
      exact ⟨h, .payload none, R, nodes, by simp only [fibStep, fibonacciHeapPeek, hmin],
        .peekEmpty (contents_of_min_none hr hmin), hr, fun _ a ha _ => ha⟩
    | some z =>
      obtain ⟨v, hv, hz, hminimal⟩ := hr.minimal hc hmin
      exact ⟨h, .payload (some v), R, nodes, by simp only [fibStep, fibonacciHeapPeek, hmin, hv],
        .peek hz hminimal, hr, fun _ a ha _ => ha⟩
  | size =>
    refine ⟨h, .count h.n, R, nodes, rfl, ?_, hr, fun _ a ha _ => ha⟩
    rw [← ncard_support_contents hs]
    exact .size
  | clear =>
    have hr' : Represents cmp (fibonacciHeapClear h) (fun _ => []) ∅ := represents_empty rfl rfl
    have hcontents : contents (fibonacciHeapClear h) = fun _ => none :=
      funext fun a => contents_of_notMem hr'.toSound (Finset.notMem_empty a)
    exact ⟨fibonacciHeapClear h, .done, _, ∅, rfl, hcontents ▸ .clear, hr',
      fun hne => absurd rfl hne⟩

/-- **The invariant holds in every reachable state**, by induction on the calls. -/
theorem Reachable.represents (hc : IsComparator fun a b => cmp (some a) (some b)) {h : FibHeap α}
    (hh : Reachable cmp h) : ∃ R nodes, Represents cmp h R nodes := by
  induction hh with
  | create => exact ⟨_, ∅, represents_empty rfl rfl⟩
  | step _ hallowed hstep ih =>
    obtain ⟨R, nodes, hr⟩ := ih
    obtain ⟨h', answer, R', nodes', hstep', -, hr', -⟩ := fibStep_spec hc hr hallowed
    rw [hstep] at hstep'
    cases hstep'
    exact ⟨R', nodes', hr'⟩

/-- **The Fibonacci heap is a priority queue with handles.** A new heap is empty. In every state
that allowed calls lead to, finitely many payloads are stored and the size is their number; and
every allowed call returns, with the answer and the effect it should have on what is stored. -/
theorem fibonacciHeap_refines (hc : IsComparator fun a b : α => cmp (some a) (some b)) :
    contents (createFibonacciHeap : FibHeap α) = (fun _ => none) ∧
    ∀ h : FibHeap α, Reachable cmp h →
      (support (contents h)).Finite ∧ h.n = (support (contents h)).ncard ∧
      ∀ call, Allowed cmp (contents h) call → ∃ h' answer,
        fibStep cmp h call = some (h', answer) ∧ Reachable cmp h' ∧
        Effect cmp (contents h) call answer (contents h') := by
  refine ⟨?_, fun h hh => ?_⟩
  · have hr : Represents cmp (createFibonacciHeap : FibHeap α) (fun _ => []) ∅ :=
      represents_empty rfl rfl
    exact funext fun a => contents_of_notMem hr.toSound (Finset.notMem_empty a)
  · obtain ⟨R, nodes, hr⟩ := hh.represents hc
    refine ⟨?_, (ncard_support_contents hr.toSound).symm, fun call hallowed => ?_⟩
    · rw [support_contents hr.toSound]
      exact nodes.finite_toSet
    · obtain ⟨h', answer, R', nodes', hstep, heffect, -⟩ := fibStep_spec hc hr hallowed
      exact ⟨h', answer, hstep, .step hh hallowed hstep, heffect⟩

/-- A new heap into which payloads are put, from left to right. -/
def putAll (cmp : Option α → Option α → ℤ) (items : List α) : FibHeap α :=
  items.foldl (fun h item => (fibonacciHeapPut cmp .always h (some item)).1) createFibonacciHeap

theorem putAll_concat (items : List α) (item : α) : putAll cmp (items ++ [item]) =
    (fibonacciHeapPut cmp .always (putAll cmp items) (some item)).1 := by
  rw [putAll, List.foldl_append]
  rfl

theorem putAll_n (items : List α) : (putAll cmp items).n = items.length := by
  induction items using List.reverseRecOn with
  | nil => rfl
  | append_singleton items item ih =>
    rw [putAll_concat, List.length_append, ← ih]
    simp only [fibonacciHeapPut, Allocator.alloc_always, fibonacciHeapInsert]
    split <;> rfl

/-- There is room for one more payload. -/
theorem Reachable.allowed_put (hc : IsComparator fun a b => cmp (some a) (some b)) {h : FibHeap α}
    (hh : Reachable cmp h) (hroom : h.n < intMax) (item : α) :
    Allowed cmp (contents h) (.put item) := by
  obtain ⟨R, nodes, hr⟩ := hh.represents hc
  show (support (contents h)).ncard < intMax
  rwa [ncard_support_contents hr.toSound]

/-- **Payloads put into a new heap** are allowed calls as long as there is room for them. -/
theorem reachable_putAll (hc : IsComparator fun a b => cmp (some a) (some b)) (items : List α)
    (hlen : items.length ≤ intMax) : Reachable cmp (putAll cmp items) := by
  induction items using List.reverseRecOn with
  | nil => exact .create
  | append_singleton items item ih =>
    rw [List.length_append, List.length_singleton] at hlen
    have hh := ih (by omega)
    rw [putAll_concat]
    exact .step hh (hh.allowed_put hc (by rw [putAll_n]; omega) item) rfl

/-- Payloads 3, 1, 2 and 4, under the handles 0 to 3. The pop takes out 1 and links 4 below 2; the
key of the child is then decreased, which cuts it off, and 3 is deleted by its handle. -/
theorem fibonacciHeap_refines_subtract :
    let cmp : Option ℤ → Option ℤ → ℤ := fun a b => a.getD 0 - b.getD 0
    let h := putAll cmp [3, 1, 2, 4]
    ∃ h₁ h₂ h₃,
      fibStep cmp h .pop = some (h₁, .payload (some 1)) ∧
      Effect cmp (contents h) .pop (.payload (some 1)) (contents h₁) ∧
      fibStep cmp h₁ (.decreaseKey 3 0) = some (h₂, .status .success) ∧
      Effect cmp (contents h₁) (.decreaseKey 3 0) (.status .success) (contents h₂) ∧
      fibStep cmp h₂ (.deleteNode 0) = some (h₃, .status .success) ∧
      Effect cmp (contents h₂) (.deleteNode 0) (.status .success) (contents h₃) ∧
      (support (contents h₃)).ncard = 2 := by
  intro cmp h
  have hc : IsComparator fun a b : ℤ => cmp (some a) (some b) := subtract_isComparator
  have hcall : ∀ {h : FibHeap ℤ}, Reachable cmp h → ∀ call, Allowed cmp (contents h) call →
      ∃ h' answer, fibStep cmp h call = some (h', answer) ∧ Reachable cmp h' ∧
        Effect cmp (contents h) call answer (contents h') :=
    fun {h} hh => ((fibonacciHeap_refines hc).2 h hh).2.2
  have hh : Reachable cmp h := reachable_putAll hc [3, 1, 2, 4] (by decide)
  obtain ⟨h₁, answer₁, hrun₁, hh₁, heffect₁⟩ := hcall hh .pop trivial
  have hpop : (fibStep cmp h .pop).map (fun r => (r.2, r.1.min, r.1.child 2, r.1.data 3)) =
      some (.payload (some 1), some 2, some 3, some 4) := by decide +kernel
  rw [hrun₁] at hpop
  simp only [Option.map_some, Option.some.injEq, Prod.mk.injEq] at hpop
  obtain ⟨rfl, hmin₁, hchild₁, hdata₁⟩ := hpop
  have hkey : contents h₁ 3 = some 4 := (if_pos (.child (.min hmin₁) hchild₁)).trans hdata₁
  obtain ⟨h₂, answer₂, hrun₂, hh₂, heffect₂⟩ :=
    hcall hh₁ (.decreaseKey 3 0) ⟨4, hkey, by decide⟩
  have hdecrease : ((fibStep cmp h .pop).bind fun r => (fibStep cmp r.1 (.decreaseKey 3 0)).map
      fun r => (r.2, r.1.min, r.1.right 3, r.1.data 0)) =
      some (.status .success, some 3, 0, some 3) := by decide +kernel
  rw [hrun₁, Option.bind_some, hrun₂] at hdecrease
  simp only [Option.map_some, Option.some.injEq, Prod.mk.injEq] at hdecrease
  obtain ⟨rfl, hmin₂, hright₂, hdata₂⟩ := hdecrease
  have hhandle : contents h₂ 0 = some 3 :=
    (if_pos (hright₂ ▸ Reach.right (.min hmin₂))).trans hdata₂
  obtain ⟨h₃, answer₃, hrun₃, hh₃, heffect₃⟩ :=
    hcall hh₂ (.deleteNode 0) (by rw [Allowed, hhandle]; exact Option.some_ne_none 3)
  have hdelete : ((fibStep cmp h .pop).bind fun r => (fibStep cmp r.1 (.decreaseKey 3 0)).bind
      fun r => (fibStep cmp r.1 (.deleteNode 0)).map fun r => (r.2, r.1.n)) =
      some (.status .success, 2) := by decide +kernel
  rw [hrun₁, Option.bind_some, hrun₂, Option.bind_some, hrun₃] at hdelete
  simp only [Option.map_some, Option.some.injEq, Prod.mk.injEq] at hdelete
  obtain ⟨rfl, hn⟩ := hdelete
  refine ⟨h₁, h₂, h₃, hrun₁, heffect₁, hrun₂, heffect₂, hrun₃, heffect₃, ?_⟩
  rw [← ((fibonacciHeap_refines hc).2 h₃ hh₃).2.1, hn]

end Heap

end OvaLib
