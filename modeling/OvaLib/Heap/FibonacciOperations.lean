import OvaLib.Heap.FibonacciPromote

/-!
# The operations of the Fibonacci heap

The invariant has two parts. `Sound` says that the memory holds a heap-ordered forest of the given
nodes; `Represents` adds that `h->min` is a minimum. `fibonacci_heap_delete` pops a node that is
not, so popping asks for the first part only.

## The invariant

The memory holds a forest `R` of the nodes `nodes`: `R none` are the roots, beginning with `h->min`,
and `R (some a)` are the children of `a`, beginning with its child field. No payload compares below
that of its parent, every payload is there, the size is the number of nodes, and there are at most
`INT_MAX` of them. Addresses from `fresh` on are not in use.

It is existential in `R`: the calls that rearrange the forest say that there is some forest
afterwards, with the same nodes or with one node more or less, and never which one. That the order
of the roots is not described is what keeps these statements short.

## How the proof goes

Popping is uprooting and consolidating. In between the node that is taken out still points into the
ring of the roots, and the code goes on from there. Deleting brings a node to the front of the
roots, where it need not be a minimum, and pops it. Decreasing a key cuts the node off if it has
come to compare below its parent, and cascades; the payload is written before, and the heap order is
then broken in this one place.

## Main results

* `fibonacciHeapPop_spec`, `fibonacciHeapDelete_spec`
* `fibonacciHeapDecreaseKey_spec`
* `fibonacciHeapInsert_spec`
-/

namespace OvaLib

namespace Heap

open Foundation

variable {α : Type*} {cmp : Option α → Option α → ℤ} {data : Addr → Option α}

/-! ## The invariant -/

/-- **The memory holds a heap** of the given nodes, with some root in front. This is what pop needs:
`fibonacci_heap_delete` calls it with a root in front that need not be a minimum. -/
structure Sound (cmp : Option α → Option α → ℤ) (h : FibHeap α) (R : Option Addr → List Addr)
    (nodes : Finset Addr) : Prop where
  /-- The forest in memory, in heap order. -/
  tidy : FibNodes.Tidy cmp h.data h.toFibNodes R nodes
  /-- No payload is `NULL`. -/
  payload : ∀ a ∈ nodes, ∃ v, h.data a = some v
  /-- The head of the roots. -/
  head : h.min = (R none).head?
  size : h.n = nodes.card
  /-- Addresses that were not handed out are not in use. -/
  fresh : ∀ a ∈ nodes, a < h.fresh
  card_le : nodes.card ≤ intMax

/-- **The invariant**: the root in front is a minimum. -/
structure Represents (cmp : Option α → Option α → ℤ) (h : FibHeap α) (R : Option Addr → List Addr)
    (nodes : Finset Addr) : Prop extends Sound cmp h R nodes where
  min_le : ∀ c, h.min = some c → ∀ a ∈ nodes, cmp (h.data c) (h.data a) ≤ 0

variable {h : FibHeap α} {R : Option Addr → List Addr} {nodes : Finset Addr}

/-- There is a root where there is a node. -/
theorem exists_root (hF : IsForest R nodes) {a : Addr} (ha : a ∈ nodes) :
    ∃ c t, R none = c :: t := by
  cases hR : R none with
  | nil =>
    refine absurd (hF.induction (P := fun _ => False) (fun b hb => ?_) (fun _ _ hf => hf.elim) a ha)
      id
    rw [hR] at hb
    exact absurd hb List.not_mem_nil
  | cons c t => exact ⟨c, t, rfl⟩

/-- The minimum of the roots is a minimum. -/
theorem min_le_of_roots (hc : IsComparator fun a b => cmp (some a) (some b))
    {m : FibNodes} (ht : FibNodes.Tidy cmp data m R nodes)
    (hdata : ∀ a ∈ nodes, ∃ v, data a = some v) {c : Addr} (hmem : c ∈ nodes)
    (hmin : ∀ a ∈ R none, cmp (data c) (data a) ≤ 0) :
    ∀ a ∈ nodes, cmp (data c) (data a) ≤ 0 :=
  ht.shape.forest.induction hmin fun a ha hle b hb =>
    payload_trans hc (hdata c hmem) (hdata a ha) (hdata b (ht.shape.forest.mem hb)) hle
      (ht.ordered hb)

/-! ## Popping

The payload that is returned is read before the node is freed, and the payloads of the others are
not touched. -/

/-- The memory once the root `z` has been taken out: `z` still points to a root, if there is one.
The source uses this pointer after the node has left its ring, to find where the roots begin. -/
structure Uprooted (cmp : Option α → Option α → ℤ) (data : Addr → Option α) (m : FibNodes)
    (R : Option Addr → List Addr) (nodes : Finset Addr) (z : Addr) : Prop where
  tidy : FibNodes.Tidy cmp data m R (nodes.erase z)
  /-- Where the code goes on: with a root, or with the node itself when there is none. -/
  right : m.right z = (R none).head?.getD z

/-- **The first half of `fibonacci_heap_pop`**: `z` hands its children to the roots and leaves. The
fuel is for the loop over the children, which passes most of them twice. -/
theorem uproot_spec (hs : Sound cmp h R nodes) {z : Addr} (hz : h.min = some z) {fuel : ℕ}
    (hfuel : 2 * nodes.card ≤ fuel) :
    z ∈ nodes ∧ ∃ m R', h.toFibNodes.promote z fuel = some m ∧
      Uprooted cmp h.data (m.spliceOut z) R' nodes z := by
  obtain ⟨t, hroots⟩ : ∃ t, R none = z :: t := by
    have hhead := hs.head
    rw [hz] at hhead
    exact List.head?_eq_some_iff.mp hhead.symm
  obtain ⟨m, R', hpromote, hp⟩ := FibNodes.promote_spec hs.tidy.shape hroots hfuel
  obtain ⟨l, hl⟩ := hp.roots
  have hring := hp.rings.ring none
  rw [hl] at hring
  have hright : (m.spliceOut z).right z = m.right z := by
    by_cases heq : z = m.left z
    · have := (FibNodes.spliceOut_unlinked m z).right_left
      rwa [← heq] at this
    · exact (FibNodes.spliceOut_unlinked m z).right_eq z heq
  refine ⟨hs.tidy.shape.forest.mem (hroots ▸ List.mem_cons_self : z ∈ R none), m, _, hpromote,
    hp.remove hs.tidy hl, ?_⟩
  rw [Function.update_self, hright]
  cases l with
  | nil => exact (isRing_singleton.mp hring).1
  | cons b l => exact hring.right_head

/-- The second half, when there is a root left: its ring is consolidated. -/
theorem Uprooted.head_spec {m : FibNodes} {z : Addr} (hu : Uprooted cmp data m R nodes z)
    {b : Addr} {l : List Addr} (hroots : R none = b :: l) :
    m.right z = b ∧ z ≠ b ∧ l.length < (nodes.erase z).card := by
  have hF := hu.tidy.shape.forest
  have hb : b ∈ nodes.erase z := hF.mem (hroots ▸ List.mem_cons_self : b ∈ R none)
  refine ⟨by rw [hu.right, hroots]; rfl, fun heq => (Finset.mem_erase.mp hb).1 heq.symm, ?_⟩
  exact length_le_card_of_nodup (hroots ▸ hF.nodup none) fun a ha =>
    hF.mem (hroots ▸ ha : a ∈ R none)

/-- **`fibonacci_heap_pop`** takes out the root in front, whether it is a minimum or not. Afterwards
the root in front is a minimum, as consolidation has looked at all of them. -/
theorem fibonacciHeapPop_spec (hc : IsComparator fun a b => cmp (some a) (some b))
    (hs : Sound cmp h R nodes) {z : Addr} (hz : h.min = some z) {fuel : ℕ}
    (hfuel : 2 * nodes.card ≤ fuel) :
    ∃ h' R', fibonacciHeapPop cmp fuel h = some (h', h.data z) ∧
      Represents cmp h' R' (nodes.erase z) ∧ h'.data = h.data ∧ z ∈ nodes := by
  obtain ⟨hzmem, m₁, R₁, hpromote, hu⟩ := uproot_spec hs hz hfuel
  have hcard : (nodes.erase z).card + 1 = nodes.card := Finset.card_erase_add_one hzmem
  have hpayload : ∀ a ∈ nodes.erase z, ∃ v, h.data a = some v :=
    fun a ha => hs.payload a (Finset.mem_of_mem_erase ha)
  have hcard_le := hs.card_le
  have hsize := hs.size
  -- the rest of the heap, once the roots are consolidated
  obtain ⟨m', min', R', hcons, ht', hhead', hmin'⟩ : ∃ m' min' R',
      (if z = (m₁.spliceOut z).right z then some (m₁.spliceOut z, none)
        else (m₁.spliceOut z).consolidate cmp h.data fuel (some ((m₁.spliceOut z).right z))) =
        some (m', min') ∧ FibNodes.Consolidated cmp h.data (nodes.erase z) m' min' R' := by
    cases hroots : R₁ none with
    | nil =>
      have hright := hu.right
      rw [hroots] at hright
      exact ⟨_, _, R₁, if_pos hright.symm, hu.tidy, by rw [hroots]; rfl, nofun⟩
    | cons b l =>
      obtain ⟨hright, hne, hlen⟩ := hu.head_spec hroots
      obtain ⟨m', min', R', hrun, hspec⟩ := FibNodes.consolidate_spec hc hpayload
        (show (nodes.erase z).card ≤ intMax by omega) hu.tidy hroots (show l.length < fuel by omega)
      refine ⟨m', min', R', ?_, hspec⟩
      rw [hright, if_neg hne]
      exact hrun
  refine ⟨{ h with toFibNodes := m', min := min', n := h.n - 1 }, R', ?_, ⟨⟨ht', hpayload, hhead',
    ?_, fun a ha => hs.fresh a (Finset.mem_of_mem_erase ha), by omega⟩, fun c hmin a ha => ?_⟩, rfl,
    hzmem⟩
  · rw [fibonacciHeapPop, hz]
    simp only [hpromote, Option.bind_some, hcons, Option.map_some]
  · show h.n - 1 = _
    omega
  · have hcroot : c ∈ R' none := List.mem_of_head? (hhead' ▸ hmin)
    exact min_le_of_roots hc ht' hpayload (ht'.shape.forest.mem hcroot) (hmin' c hmin) a ha

/-! ## Decreasing a key -/

/-- The order after a payload has been replaced by a smaller one, where the node's parent, if it
still has one, is no larger. -/
theorem ordered_update (hc : IsComparator fun a b => cmp (some a) (some b))
    (hs : Sound cmp h R nodes) {x : Addr} {v : α} (hx : x ∈ nodes)
    (hle : cmp (some v) (h.data x) ≤ 0) {R' : Option Addr → List Addr}
    (hchildren : ∀ {a b}, b ∈ R' (some a) → b ∈ R (some a))
    (hparent : ∀ y, x ∈ R' (some y) → cmp (h.data y) (some v) ≤ 0) :
    FibNodes.Ordered cmp (Function.update h.data x (some v)) R' := by
  intro a b hb
  have hold := hchildren hb
  have hF := hs.tidy.shape.forest
  by_cases hbx : b = x
  · subst hbx
    have hab : a ≠ b := by
      rintro rfl
      obtain ⟨rank, hrank⟩ := hF.ranked
      exact absurd (hrank hold) (Nat.lt_irrefl _)
    rw [Function.update_self, Function.update_of_ne hab]
    exact hparent a hb
  · rw [Function.update_of_ne hbx]
    by_cases hax : a = x
    · subst hax
      rw [Function.update_self]
      exact payload_trans hc ⟨v, rfl⟩ (hs.payload a hx) (hs.payload b (hF.mem hold)) hle
        (hs.tidy.ordered hold)
    · rw [Function.update_of_ne hax]
      exact hs.tidy.ordered hold

/-- The nodes after `fibonacci_heap_decrease_key`. The minimum may be either the old one or the node
whose key has been decreased, which the last comparison of the source decides. -/
structure Decreased (cmp : Option α → Option α → ℤ) (data' : Addr → Option α) (m' : FibNodes)
    (R' : Option Addr → List Addr) (nodes : Finset Addr) (c x : Addr) : Prop where
  tidy : FibNodes.Tidy cmp data' m' R' nodes
  roots : ∃ t, R' none = c :: t
  root_of_lt : cmp (data' x) (data' c) < 0 → x ∈ R' none

/-- **The key is decreased** and, where need be, the node cut off. If it stays, the heap order holds
with the new payload; if it does not, it is a root, and a root is below nothing. -/
theorem decrease_spec (hc : IsComparator fun a b => cmp (some a) (some b))
    (hr : Represents cmp h R nodes) {x c : Addr} {v : α} (hx : x ∈ nodes) (hmin : h.min = some c)
    (hle : cmp (some v) (h.data x) ≤ 0) {fuel : ℕ} (hfuel : nodes.card < fuel) :
    ∃ m' R', fibonacciHeapDecreaseKey cmp fuel h (some x) (some v) =
        some ({ h with
          toFibNodes := m'
          data := Function.update h.data x (some v)
          min := if cmp (some v) (Function.update h.data x (some v) c) < 0 then some x
            else some c }, .success) ∧
      Decreased cmp (Function.update h.data x (some v)) m' R' nodes c x := by
  have hs := hr.toSound
  have hF := hs.tidy.shape.forest
  obtain ⟨t, hroots⟩ : ∃ t, R none = c :: t := by
    have hhead := hs.head
    rw [hmin] at hhead
    exact List.head?_eq_some_iff.mp hhead.symm
  have hcmem : c ∈ nodes := hF.mem (hroots ▸ List.mem_cons_self : c ∈ R none)
  obtain ⟨o, ho⟩ := hF.mem_iff.mp hx
  have hpar := hs.tidy.shape.parent ho
  cases o with
  | none =>
    have hnotKid : ∀ y, x ∉ R (some y) := fun y => hF.notMem_of_ne ho (by simp)
    refine ⟨h.toFibNodes, R, ?_, ⟨hs.tidy.shape, hs.tidy.markThin, ?_⟩, ⟨t, hroots⟩, fun _ => ho⟩
    · simp only [fibonacciHeapDecreaseKey, hmin, hpar, Option.map_some, Function.update_self]
    · exact ordered_update hc hs hx hle id fun y hy => absurd hy (hnotKid y)
  | some y =>
    have hxy : y ≠ x := by
      rintro rfl
      obtain ⟨rank, hrank⟩ := hF.ranked
      exact absurd (hrank ho) (Nat.lt_irrefl _)
    have hymem := hF.owner_mem ho
    have hdatay : Function.update h.data x (some v) y = h.data y := Function.update_of_ne hxy _ _
    by_cases hlt : cmp (some v) (h.data y) < 0
    · obtain ⟨m', R', hrun, hspec, hroot⟩ :=
        FibNodes.cutCascade_spec hs.tidy.shape hroots ho hs.tidy.markThin hfuel
      refine ⟨m', R', ?_, ⟨hspec.shape, hspec.markThin, ?_⟩, hspec.roots, fun _ => hroot⟩
      · simp only [fibonacciHeapDecreaseKey, hmin, hpar, Function.update_self, hdatay, if_pos hlt,
          hrun, Option.map_some]
      · exact ordered_update hc hs hx hle hspec.children fun y hy =>
          absurd hy (hspec.shape.forest.notMem_of_ne hroot (by simp))
    · have hyv := payload_le_of_not_lt hc ⟨v, rfl⟩ (hs.payload y hymem) hlt
      refine ⟨h.toFibNodes, R, ?_, ⟨hs.tidy.shape, hs.tidy.markThin, ?_⟩, ⟨t, hroots⟩,
        fun hltc => ?_⟩
      · simp only [fibonacciHeapDecreaseKey, hmin, hpar, Function.update_self, hdatay, if_neg hlt,
          Option.map_some]
      · refine ordered_update hc hs hx hle id fun y' hy' => ?_
        cases hF.disjoint hy' ho
        exact hyv
      · -- a node that keeps its parent is not below the minimum
        by_cases hcx : c = x
        · exact absurd ho
            (hF.notMem_of_ne (hcx ▸ hroots ▸ List.mem_cons_self : x ∈ R none) (by simp))
        · rw [Function.update_self, Function.update_of_ne hcx] at hltc
          have hcy := hr.min_le c hmin y hymem
          have hcv := payload_trans hc (hs.payload c hcmem) (hs.payload y hymem) ⟨v, rfl⟩ hcy hyv
          obtain ⟨u, hu⟩ := hs.payload c hcmem
          rw [hu] at hltc hcv
          exact absurd hltc (not_lt.mpr (hc.nonneg_of_le hcv))

/-- **`fibonacci_heap_decrease_key`**. -/
theorem fibonacciHeapDecreaseKey_spec (hc : IsComparator fun a b => cmp (some a) (some b))
    (hr : Represents cmp h R nodes) {x : Addr} {v : α} (hx : x ∈ nodes)
    (hle : cmp (some v) (h.data x) ≤ 0) {fuel : ℕ} (hfuel : nodes.card < fuel) :
    ∃ h' R', fibonacciHeapDecreaseKey cmp fuel h (some x) (some v) = some (h', .success) ∧
      Represents cmp h' R' nodes ∧ h'.data = Function.update h.data x (some v) := by
  obtain ⟨c, t, hroots⟩ := exists_root hr.tidy.shape.forest hx
  have hmin : h.min = some c := by rw [hr.head, hroots]; rfl
  have hcmem : c ∈ nodes := hr.tidy.shape.forest.mem (hroots ▸ List.mem_cons_self : c ∈ R none)
  obtain ⟨m', R', hrun, hdec⟩ := decrease_spec hc hr hx hmin hle hfuel
  obtain ⟨t', hroots'⟩ := hdec.roots
  have hpayload : ∀ a ∈ nodes, ∃ w, Function.update h.data x (some v) a = some w := by
    intro a ha
    by_cases hax : a = x
    · exact ⟨v, by rw [hax, Function.update_self]⟩
    · rw [Function.update_of_ne hax]
      exact hr.payload a ha
  -- every payload is at least the old minimum or is the new one
  have hcle := hr.min_le c hmin
  have hlow : ∀ a ∈ nodes, cmp (some v) (h.data c) ≤ 0 →
      cmp (some v) (Function.update h.data x (some v) a) ≤ 0 := by
    intro a ha hvc
    by_cases hax : a = x
    · rw [hax, Function.update_self]
      exact (hc.self v).le
    · rw [Function.update_of_ne hax]
      exact payload_trans hc ⟨v, rfl⟩ (hr.payload c hcmem) (hr.payload a ha) hvc (hcle a ha)
  by_cases hlt : cmp (some v) (Function.update h.data x (some v) c) < 0
  · have hxroot := hdec.root_of_lt (by rwa [Function.update_self])
    have hcx : c ≠ x := by
      rintro rfl
      rw [Function.update_self] at hlt
      exact absurd hlt (not_lt.mpr (hc.self v).ge)
    rw [Function.update_of_ne hcx] at hlt
    obtain ⟨s, u, hsu⟩ := List.append_of_mem hxroot
    have hring := hdec.tidy.shape.ring none
    rw [hsu] at hring
    have hperm : (x :: u ++ s).Perm (R' none) := hsu ▸ List.perm_append_comm
    rw [if_pos (by rwa [Function.update_of_ne hcx])] at hrun
    refine ⟨_, Function.update R' none (x :: u ++ s), hrun, ⟨⟨hdec.tidy.reroot hperm hring.rotate,
      hpayload, ?_, hr.size, hr.fresh, hr.card_le⟩, fun c' hc' a ha => ?_⟩, rfl⟩
    · rw [Function.update_self]
      rfl
    · obtain rfl : x = c' := Option.some.inj hc'
      show cmp (Function.update h.data x (some v) x) _ ≤ 0
      rw [Function.update_self]
      exact hlow a ha hlt.le
  · rw [if_neg hlt] at hrun
    refine ⟨_, R', hrun, ⟨⟨hdec.tidy, hpayload, ?_, hr.size, hr.fresh, hr.card_le⟩,
      fun c' hc' a ha => ?_⟩, rfl⟩
    · rw [hroots']
      rfl
    · obtain rfl : c = c' := Option.some.inj hc'
      show cmp (Function.update h.data x (some v) c) (Function.update h.data x (some v) a) ≤ 0
      by_cases hcx : c = x
      · subst hcx
        rw [Function.update_self]
        exact hlow a ha hle
      · rw [Function.update_of_ne hcx] at hlt ⊢
        by_cases hax : a = x
        · rw [hax, Function.update_self]
          exact payload_le_of_not_lt hc ⟨v, rfl⟩ (hr.payload c hcmem) hlt
        · rw [Function.update_of_ne hax]
          exact hcle a ha

/-! ## Deleting a node

After the first half the node is a root, whatever it was before. -/

/-- The first half of `fibonacci_heap_delete`: the node is cut off, unless it is a root. -/
def detach (fuel : ℕ) (h : FibHeap α) (x : Addr) : Option FibNodes :=
  match h.parent x with
  | none => some h.toFibNodes
  | some y =>
    match h.min with
    | none => none
    | some min => (h.cut min x y).cascadingCut min fuel y

theorem fibonacciHeapDelete_eq (cmp : Option α → Option α → ℤ) (fuel : ℕ) (h : FibHeap α)
    (x : Addr) : fibonacciHeapDelete cmp fuel h (some x) = (detach fuel h x).bind fun m =>
      (fibonacciHeapPop cmp fuel { h with toFibNodes := m, min := some x }).map fun r =>
        (r.1, .success) :=
  rfl

/-- **The node of a handle** comes to be the root in front. From here on the source sets `h->min` to
it and pops, without the key being changed to one below all others. -/
theorem detach_spec (hs : Sound cmp h R nodes) {x : Addr} (hx : x ∈ nodes) {fuel : ℕ}
    (hfuel : nodes.card < fuel) :
    ∃ m R', detach fuel h x = some m ∧
      Sound cmp { h with toFibNodes := m, min := some x } R' nodes := by
  have hF := hs.tidy.shape.forest
  obtain ⟨c, t, hroots⟩ := exists_root hF hx
  have hmin : h.min = some c := by rw [hs.head, hroots]; rfl
  obtain ⟨o, ho⟩ := hF.mem_iff.mp hx
  have hpar := hs.tidy.shape.parent ho
  obtain ⟨m, R₁, hrun, ht, hxroot⟩ : ∃ m R₁, detach fuel h x = some m ∧
      FibNodes.Tidy cmp h.data m R₁ nodes ∧ x ∈ R₁ none := by
    cases o with
    | none => exact ⟨h.toFibNodes, R, by simp only [detach, hpar], hs.tidy, ho⟩
    | some y =>
      obtain ⟨m', R', hrun, hspec, hroot⟩ := FibNodes.cutCascade_spec hs.tidy.shape hroots ho
        hs.tidy.markThin hfuel
      exact ⟨m', R', by simp only [detach, hpar, hmin, hrun], ⟨hspec.shape, hspec.markThin,
        fun hb => hs.tidy.ordered (hspec.children hb)⟩, hroot⟩
  obtain ⟨s, u, hsu⟩ := List.append_of_mem hxroot
  have hring := ht.shape.ring none
  rw [hsu] at hring
  have hperm : (x :: u ++ s).Perm (R₁ none) := hsu ▸ List.perm_append_comm
  refine ⟨m, Function.update R₁ none (x :: u ++ s), hrun, ht.reroot hperm hring.rotate, hs.payload,
    ?_, hs.size, hs.fresh, hs.card_le⟩
  rw [Function.update_self]
  rfl

/-- **`fibonacci_heap_delete`** takes out the node of its handle. -/
theorem fibonacciHeapDelete_spec (hc : IsComparator fun a b => cmp (some a) (some b))
    (hr : Represents cmp h R nodes) {x : Addr} (hx : x ∈ nodes) {fuel : ℕ}
    (hfuel : 2 * nodes.card < fuel) :
    ∃ h' R', fibonacciHeapDelete cmp fuel h (some x) = some (h', .success) ∧
      Represents cmp h' R' (nodes.erase x) ∧ h'.data = h.data := by
  obtain ⟨m, R₁, hdetach, hs⟩ := detach_spec hr.toSound hx (show nodes.card < fuel by omega)
  obtain ⟨h', R', hpop, hr', hdata, -⟩ := fibonacciHeapPop_spec hc hs rfl
    (show 2 * nodes.card ≤ fuel by omega)
  refine ⟨h', R', ?_, hr', hdata⟩
  rw [fibonacciHeapDelete_eq, hdetach, Option.bind_some, hpop]
  rfl

/-! ## Putting a payload -/

/-- The four assignments of `fibonacci_heap_put` come to the same as those of `cut`. -/
theorem putLinks_eq {m : FibNodes} {c x : Addr} (hxc : x ≠ c) (hx : m.right c ≠ x) :
    (((m.setRight x (m.right c)).setLeft ((m.setRight x (m.right c)).right x) x).setLeft x
      c).setRight c x = m.spliceIn c x := by
  have hright : (m.setRight x (m.right c)).right x = m.right c := Function.update_self _ _ _
  have hright' : ((m.setLeft x c).setRight x ((m.setLeft x c).right c)).right c = m.right c :=
    Function.update_of_ne hxc.symm _ _
  have hcomm : Function.update (Function.update m.left (m.right c) x) x c =
      Function.update (Function.update m.left x c) (m.right c) x :=
    Function.update_comm hx _ _ _
  rw [hright, FibNodes.spliceIn]
  simp only [hright']
  show ({ m with left := Function.update (Function.update m.left (m.right c) x) x c,
                 right := _ } : FibNodes) = _
  rw [hcomm]
  rfl

theorem fibonacciHeapInsert_of_none {g : FibHeap α} (hmin : g.min = none) (node : Addr) :
    fibonacciHeapInsert cmp g node = { g with min := some node, n := g.n + 1 } := by
  simp only [fibonacciHeapInsert, hmin]

theorem fibonacciHeapInsert_of_some (cmp : Option α → Option α → ℤ) {g : FibHeap α} {c node : Addr}
    (hmin : g.min = some c) (hne : node ≠ c) (hright : g.right c ≠ node) :
    fibonacciHeapInsert cmp g node = { g with
      toFibNodes := g.toFibNodes.spliceIn c node
      min := if cmp (g.data node) (g.data c) < 0 then some node else some c
      n := g.n + 1 } := by
  simp only [fibonacciHeapInsert, hmin, ← putLinks_eq hne hright]

/-- A memory that differs from `h` only in a new root, and in the left and right fields of the
roots. -/
structure PutFrame (h : FibHeap α) (m' : FibNodes) : Prop where
  parent : m'.parent = Function.update h.parent h.fresh none
  child : m'.child = Function.update h.child h.fresh none
  degree : m'.degree = Function.update h.degree h.fresh 0
  mark : m'.mark = Function.update h.mark h.fresh false

/-- **The new root joins the forest.** -/
theorem put_tidy (hs : Sound cmp h R nodes) {m' : FibNodes} (hm : PutFrame h m') {l : List Addr}
    {p : Option α} (hl : l.Perm (h.fresh :: R none))
    (hring : Rings m'.toDll (Function.update R none l)) :
    FibNodes.Tidy cmp (Function.update h.data h.fresh p) m' (Function.update R none l)
      (insert h.fresh nodes) := by
  have hF := hs.tidy.shape.forest
  have hnew : h.fresh ∉ nodes := fun hmem => Nat.lt_irrefl _ (hs.fresh _ hmem)
  have hold : ∀ {o a}, a ∈ R o → a ≠ h.fresh := fun ha heq => hnew (heq ▸ hF.mem ha)
  have hkeep : ∀ a, Function.update R none l (some a) = R (some a) :=
    fun a => Function.update_of_ne (by simp) _ _
  refine ⟨⟨hF.addRoot hnew hl, hring.ring, fun {o b} hb => ?_, fun a ha => ?_, fun a ha => ?_⟩,
    fun a i b hi => ?_, fun {a b} hb => ?_⟩
  · rw [hm.parent]
    cases o with
    | none =>
      rw [Function.update_self] at hb
      rcases List.mem_cons.mp (hl.mem_iff.mp hb) with rfl | hb
      · exact Function.update_self _ _ _
      · rw [Function.update_of_ne (hold hb)]
        exact hs.tidy.shape.parent hb
    | some a =>
      rw [hkeep] at hb
      rw [Function.update_of_ne (hold hb)]
      exact hs.tidy.shape.parent hb
  · rw [hm.child, hkeep]
    rcases Finset.mem_insert.mp ha with rfl | ha
    · rw [Function.update_self, hF.eq_nil hnew]
      rfl
    · rw [Function.update_of_ne (show a ≠ h.fresh from fun heq => hnew (heq ▸ ha))]
      exact hs.tidy.shape.child a ha
  · rw [hm.degree, hkeep]
    rcases Finset.mem_insert.mp ha with rfl | ha
    · rw [Function.update_self, hF.eq_nil hnew]
      rfl
    · rw [Function.update_of_ne (show a ≠ h.fresh from fun heq => hnew (heq ▸ ha))]
      exact hs.tidy.shape.degree a ha
  · rw [hkeep] at hi
    have hb := hold (List.mem_of_getElem? hi)
    rw [hm.degree, hm.mark, Function.update_of_ne hb, Function.update_of_ne hb]
    exact hs.tidy.markThin a i b hi
  · rw [hkeep] at hb
    have ha : a ≠ h.fresh := fun heq => hnew (heq ▸ hF.owner_mem hb)
    rw [Function.update_of_ne ha, Function.update_of_ne (hold hb)]
    exact hs.tidy.ordered hb

/-- A heap that differs from `h` only in a new root, which holds `v`. -/
structure PutAt (h : FibHeap α) (v : α) (h' : FibHeap α) : Prop where
  frame : PutFrame h h'.toFibNodes
  data : h'.data = Function.update h.data h.fresh (some v)
  fresh : h'.fresh = h.fresh + 1
  size : h'.n = h.n + 1

namespace PutAt

variable {h' : FibHeap α} {v : α}

theorem data_self (hput : PutAt h v h') : h'.data h.fresh = some v := by
  rw [hput.data, Function.update_self]

theorem data_of_mem (hput : PutAt h v h') (hnew : h.fresh ∉ nodes) {a : Addr} (ha : a ∈ nodes) :
    h'.data a = h.data a := by
  rw [hput.data, Function.update_of_ne (ne_of_mem_of_not_mem ha hnew)]

/-- A payload that is not above the old minimum is a minimum. -/
theorem new_le (hput : PutAt h v h') (hc : IsComparator fun a b => cmp (some a) (some b))
    (hr : Represents cmp h R nodes) (hnew : h.fresh ∉ nodes) {c : Addr} (hmin : h.min = some c)
    (hcmem : c ∈ nodes) (hvc : cmp (some v) (h.data c) ≤ 0) :
    ∀ a ∈ insert h.fresh nodes, cmp (h'.data h.fresh) (h'.data a) ≤ 0 := by
  intro a ha
  rw [hput.data_self]
  rcases Finset.mem_insert.mp ha with rfl | ha
  · rw [hput.data_self]
    exact (hc.self v).le
  · rw [hput.data_of_mem hnew ha]
    exact payload_trans hc ⟨v, rfl⟩ (hr.payload c hcmem) (hr.payload a ha) hvc
      (hr.min_le c hmin a ha)

/-- A payload that is not below the old minimum leaves it in front. -/
theorem old_le (hput : PutAt h v h') (hc : IsComparator fun a b => cmp (some a) (some b))
    (hr : Represents cmp h R nodes) (hnew : h.fresh ∉ nodes) {c : Addr} (hmin : h.min = some c)
    (hcmem : c ∈ nodes) (hlt : ¬ cmp (some v) (h.data c) < 0) :
    ∀ a ∈ insert h.fresh nodes, cmp (h'.data c) (h'.data a) ≤ 0 := by
  intro a ha
  rw [hput.data_of_mem hnew hcmem]
  rcases Finset.mem_insert.mp ha with rfl | ha
  · rw [hput.data_self]
    exact payload_le_of_not_lt hc ⟨v, rfl⟩ (hr.payload c hcmem) hlt
  · rw [hput.data_of_mem hnew ha]
    exact hr.min_le c hmin a ha

/-- **The invariant holds again** when the new root is in the ring of the roots. -/
theorem represents (hput : PutAt h v h') (hs : Sound cmp h R nodes) {l : List Addr}
    (hl : l.Perm (h.fresh :: R none))
    (hring : Rings h'.toDll (Function.update R none l)) (hhead : h'.min = l.head?)
    (hcard : nodes.card < intMax)
    (hmin : ∀ c, h'.min = some c → ∀ a ∈ insert h.fresh nodes, cmp (h'.data c) (h'.data a) ≤ 0) :
    Represents cmp h' (Function.update R none l) (insert h.fresh nodes) := by
  have hnew : h.fresh ∉ nodes := fun hmem => Nat.lt_irrefl _ (hs.fresh _ hmem)
  have hcard' : (insert h.fresh nodes).card = nodes.card + 1 := Finset.card_insert_of_notMem hnew
  refine ⟨⟨?_, fun a ha => ?_, ?_, ?_, fun a ha => ?_, by omega⟩, hmin⟩
  · rw [hput.data]
    exact put_tidy hs hput.frame hl hring
  · rcases Finset.mem_insert.mp ha with rfl | ha
    · exact ⟨v, hput.data_self⟩
    · rw [hput.data_of_mem hnew ha]
      exact hs.payload a ha
  · rw [Function.update_self]
    exact hhead
  · rw [hput.size, hs.size, hcard']
  · rw [hput.fresh]
    rcases Finset.mem_insert.mp ha with rfl | ha
    · exact Nat.lt_succ_self _
    · exact (hs.fresh a ha).trans (Nat.lt_succ_self _)

end PutAt

/-- `create_node` makes a ring of the new node alone. -/
theorem looped_fibNodeCreate (h : FibHeap α) (p : Option α) :
    Looped h.toDll (fibNodeCreate h p).toDll h.fresh :=
  ⟨Function.update_self _ _ _, Function.update_self _ _ _,
    fun _ hb => Function.update_of_ne hb _ _, fun _ hb => Function.update_of_ne hb _ _⟩

/-- In an empty heap the new node is the minimum. -/
theorem fibonacciHeapInsert_empty (hc : IsComparator fun a b => cmp (some a) (some b))
    (hr : Represents cmp h R nodes) (v : α) (hcard : nodes.card < intMax) (hroots : R none = []) :
    ∃ h' R', fibonacciHeapInsert cmp (fibNodeCreate h (some v)) h.fresh = h' ∧
      Represents cmp h' R' (insert h.fresh nodes) ∧ PutAt h v h' := by
  have hF := hr.tidy.shape.forest
  have hnew : h.fresh ∉ nodes := fun hmem => Nat.lt_irrefl _ (hr.fresh _ hmem)
  have hmin : (fibNodeCreate h (some v)).min = none := by
    show h.min = none
    rw [hr.head, hroots]
    rfl
  have hempty : nodes = ∅ := by
    by_contra hne
    obtain ⟨a, ha⟩ := Finset.nonempty_iff_ne_empty.mpr hne
    obtain ⟨c, t, hct⟩ := exists_root hF ha
    rw [hroots] at hct
    cases hct
  have hrings := hr.tidy.shape.rings.single (o := none) (fun o _ hmem => hnew (hF.mem hmem))
    (looped_fibNodeCreate h (some v))
  have hput : PutAt h v { fibNodeCreate h (some v) with min := some h.fresh, n := h.n + 1 } :=
    ⟨⟨rfl, rfl, rfl, rfl⟩, rfl, rfl, rfl⟩
  refine ⟨_, _, fibonacciHeapInsert_of_none hmin h.fresh,
    hput.represents hr.toSound (by rw [hroots]) hrings rfl hcard fun c hcmin a ha => ?_, hput⟩
  obtain rfl : h.fresh = c := Option.some.inj hcmin
  rw [hempty, Finset.mem_insert] at ha
  obtain rfl := ha.resolve_right (Finset.notMem_empty _)
  show cmp (Function.update h.data h.fresh (some v) h.fresh)
    (Function.update h.data h.fresh (some v) h.fresh) ≤ 0
  rw [Function.update_self]
  exact (hc.self v).le

/-- The heap in which the new node is to the right of `c`. -/
theorem putAt_spliceIn (h : FibHeap α) (v : α) (c : Addr) (min : Option Addr) :
    PutAt h v { fibNodeCreate h (some v) with
      toFibNodes := (fibNodeCreate h (some v)).toFibNodes.spliceIn c h.fresh
      min := min
      n := h.n + 1 } :=
  ⟨⟨rfl, rfl, rfl, rfl⟩, rfl, rfl, rfl⟩

/-- Among other roots the new node comes after the minimum, and in front when it is below it. -/
theorem fibonacciHeapInsert_cons (hc : IsComparator fun a b => cmp (some a) (some b))
    (hr : Represents cmp h R nodes) (v : α) (hcard : nodes.card < intMax) {c : Addr}
    {t : List Addr} (hroots : R none = c :: t) :
    ∃ h' R', fibonacciHeapInsert cmp (fibNodeCreate h (some v)) h.fresh = h' ∧
      Represents cmp h' R' (insert h.fresh nodes) ∧ PutAt h v h' := by
  have hF := hr.tidy.shape.forest
  have hnew : h.fresh ∉ nodes := fun hmem => Nat.lt_irrefl _ (hr.fresh _ hmem)
  have hlimbo : ∀ o, h.fresh ∉ R o := fun o hmem => hnew (hF.mem hmem)
  have hloop := looped_fibNodeCreate h (some v)
  have hmin : h.min = some c := by rw [hr.head, hroots]; rfl
  have hcroot : c ∈ R none := hroots ▸ List.mem_cons_self
  have hcmem := hF.mem hcroot
  have hcnew : h.fresh ≠ c := fun heq => hnew (heq ▸ hcmem)
  have hrings₁ : Rings (fibNodeCreate h (some v)).toDll R := by
    refine hr.tidy.shape.rings.congr fun o a ha => ?_
    have hne : a ≠ h.fresh := fun heq => hlimbo o (heq ▸ ha)
    exact ⟨hloop.right_eq a hne, hloop.left_eq a hne⟩
  have hright : (fibNodeCreate h (some v)).right c ≠ h.fresh := by
    intro heq
    have hmem := (hrings₁.neighbours hcroot).1.1
    rw [heq] at hmem
    exact hlimbo none hmem
  have hrings := hrings₁.insert hroots hlimbo (FibNodes.spliceIn_inserted hcnew hright)
  have hres := fibonacciHeapInsert_of_some cmp (g := fibNodeCreate h (some v)) hmin hcnew hright
  have hmineq : cmp ((fibNodeCreate h (some v)).data h.fresh)
      ((fibNodeCreate h (some v)).data c) = cmp (some v) (h.data c) := by
    show cmp (Function.update h.data h.fresh (some v) h.fresh)
      (Function.update h.data h.fresh (some v) c) = _
    rw [Function.update_self, Function.update_of_ne hcnew.symm]
  rw [hmineq] at hres
  by_cases hlt : cmp (some v) (h.data c) < 0
  · rw [if_pos hlt] at hres
    have hrot := hrings.rotate (o := none) (s := [c]) (t := h.fresh :: t)
      (Function.update_self _ _ _)
    rw [Function.update_idem] at hrot
    have hperm : (h.fresh :: t ++ [c]).Perm (h.fresh :: R none) := by
      rw [hroots]
      exact (List.perm_append_singleton c t).cons _
    have hput := putAt_spliceIn h v c (some h.fresh)
    refine ⟨_, _, hres, hput.represents hr.toSound hperm hrot rfl hcard fun c' hc' => ?_, hput⟩
    obtain rfl : h.fresh = c' := Option.some.inj hc'
    exact hput.new_le hc hr hnew hmin hcmem hlt.le
  · rw [if_neg hlt] at hres
    have hperm : (c :: h.fresh :: t).Perm (h.fresh :: R none) := by
      rw [hroots]
      exact List.Perm.swap _ _ _
    have hput := putAt_spliceIn h v c (some c)
    refine ⟨_, _, hres, hput.represents hr.toSound hperm hrings rfl hcard fun c' hc' => ?_, hput⟩
    obtain rfl : c = c' := Option.some.inj hc'
    exact hput.old_le hc hr hnew hmin hcmem hlt

/-- **`fibonacci_heap_put`** adds one node, under the next address, as a root. Nothing is
consolidated. -/
theorem fibonacciHeapInsert_spec (hc : IsComparator fun a b => cmp (some a) (some b))
    (hr : Represents cmp h R nodes) (v : α) (hcard : nodes.card < intMax) :
    ∃ h' R', fibonacciHeapInsert cmp (fibNodeCreate h (some v)) h.fresh = h' ∧
      Represents cmp h' R' (insert h.fresh nodes) ∧
      h'.data = Function.update h.data h.fresh (some v) ∧ h.fresh ∉ nodes := by
  have hnew : h.fresh ∉ nodes := fun hmem => Nat.lt_irrefl _ (hr.fresh _ hmem)
  cases hroots : R none with
  | nil =>
    obtain ⟨h', R', hres, hr', hput⟩ := fibonacciHeapInsert_empty hc hr v hcard hroots
    exact ⟨h', R', hres, hr', hput.data, hnew⟩
  | cons c t =>
    obtain ⟨h', R', hres, hr', hput⟩ := fibonacciHeapInsert_cons hc hr v hcard hroots
    exact ⟨h', R', hres, hr', hput.data, hnew⟩

end Heap

end OvaLib
