import OvaLib.Foundation.Ties
import OvaLib.Queue.HeapQueue

/-!
# The shallow clone of a priority queue

`priority_clone_shallow` of `heap_queue.c` empties the heap of its source into an array and puts the
items back in that order, into the source and into the copy. The array it rebuilds is the sequence
that draining the source would have given, so a new draining takes ties in an order of its own.

## What a clone leaves

Putting the items of a non-increasing sequence into an empty heap one after the other moves none of
them: each new item compares at most equal to its parent, and a sift stops at equality. So the array
of either heap is the sequence of the pops, whatever the old array was.

Draining the source before the clone gives some non-increasing sequence of its items. Draining it
after the clone gives another one, which may have ties in another order, because the array is no
longer the same. Source and copy have the same array, so they agree with each other.

## Scope

Every queue that a program can have: new queues, those that calls lead to, with failures, and the
sources and results of clones. With memory enough for the clone itself.

## Main results

* `cloneShallow_rebuilds` — both heaps afterwards are the sequence of the pops
* `cloneShallow_drains` — what a caller sees of it
* `cloneShallow_reorders_ties` — three equal items
-/

namespace OvaLib

namespace Queue

open Foundation BinaryHeap

variable {α : Type*} (cmp : α → α → ℤ)

namespace HeapQueue

/-- The loop of `priority_clone_shallow` that puts the items into the source and the copy. -/
def putBackShallow : List α → BinaryHeap α → HeapQueue α → Allocator →
    BinaryHeap α × HeapQueue α × Allocator
  | [], orig, copy, a => (orig, copy, a)
  | item :: items, orig, copy, a =>
    let (_, orig, a) := orig.put cmp item a
    let (_, copy, a) := copy.enqueue cmp item a
    putBackShallow items orig copy a

/-- `priority_clone_shallow`: what it returns, and the source afterwards. -/
def cloneShallow (q : HeapQueue α) (a : Allocator) :
    Option (HeapQueue α) × HeapQueue α × Allocator :=
  match q.cloneSetup a with
  | (none, a) => (none, q, a)
  | (some copy, a) =>
    let (items, orig) := popAll cmp q.pHeap.size q.pHeap
    let (orig, copy, a) := putBackShallow cmp items orig copy a
    (some copy, { q with pHeap := orig }, a)

/-- The priority queues a program can have: new ones, those that calls leave behind, and the
sources and results of both clone methods. -/
inductive Reachable : HeapQueue α → Prop
  | create {capacity : ℤ} {a a' : Allocator} {q : HeapQueue α} :
      HeapQueue.create capacity a = (some q, a') → Reachable q
  | call {q : HeapQueue α} (a : Allocator) (c : QueueCall α) : Reachable q →
      Reachable (c.run cmp q a).2.1
  | shallowSource {q : HeapQueue α} (a : Allocator) : Reachable q →
      Reachable (q.cloneShallow cmp a).2.1
  | shallowCopy {q copy : HeapQueue α} (a : Allocator) : Reachable q →
      (q.cloneShallow cmp a).1 = some copy → Reachable copy
  | deepSource {q : HeapQueue α} (copier : ElementCopier α) (a : Allocator) : Reachable q →
      Reachable (q.cloneDeep cmp copier a).2.1
  | deepCopy {q copy : HeapQueue α} (copier : ElementCopier α) (a : Allocator) : Reachable q →
      (q.cloneDeep cmp copier a).1 = some copy → Reachable copy

end HeapQueue

open HeapQueue

variable {cmp}

/-! ## The heap order

A queue that was emptied and filled again is in heap order like any other. -/

theorem ordered_popAll (hcmp : IsComparator cmp) (n : ℕ) {h : BinaryHeap α}
    (hordered : HeapOrdered cmp h.data) : HeapOrdered cmp (popAll cmp n h).2.data := by
  induction n generalizing h with
  | zero => exact hordered
  | succ n ih =>
    have hpop := ordered_pop hcmp h hordered
    rw [popAll]
    split
    · next h' hnone =>
      rw [hnone] at hpop
      exact hpop
    · next item h' hsome =>
      rw [hsome] at hpop
      exact ih hpop

theorem ordered_putBackShallow (hcmp : IsComparator cmp) (items : List α) {orig : BinaryHeap α}
    {copy : HeapQueue α} (a : Allocator) (horig : HeapOrdered cmp orig.data)
    (hcopy : HeapOrdered cmp copy.pHeap.data) :
    HeapOrdered cmp (putBackShallow cmp items orig copy a).1.data ∧
      HeapOrdered cmp (putBackShallow cmp items orig copy a).2.1.pHeap.data := by
  induction items generalizing orig copy a with
  | nil => exact ⟨horig, hcopy⟩
  | cons item items ih =>
    exact ih _ (ordered_put hcmp orig horig item a) (ordered_put hcmp copy.pHeap hcopy item _)

theorem ordered_putBackDeep (hcmp : IsComparator cmp) (copier : ElementCopier α) (items : List α)
    {orig : BinaryHeap α} {copy : HeapQueue α} (a : Allocator) (horig : HeapOrdered cmp orig.data)
    (hcopy : HeapOrdered cmp copy.pHeap.data) :
    HeapOrdered cmp (putBackDeep cmp copier items orig copy a).2.1.data ∧
      HeapOrdered cmp (putBackDeep cmp copier items orig copy a).2.2.1.pHeap.data := by
  induction items generalizing orig copy a with
  | nil => exact ⟨horig, hcopy⟩
  | cons item items ih =>
    have hput := ordered_put hcmp orig horig item a
    rw [putBackDeep]
    dsimp only
    split
    · exact ⟨hput, hcopy⟩
    · exact ih _ hput (ordered_put hcmp copy.pHeap hcopy _ _)

/-- **Every priority queue is in heap order.** -/
theorem HeapQueue.Reachable.ordered (hcmp : IsComparator cmp) {q : HeapQueue α}
    (h : Reachable cmp q) : HeapOrdered cmp q.pHeap.data := by
  have hnew : ∀ {q copy : HeapQueue α} {a a' : Allocator}, q.cloneSetup a = (some copy, a') →
      HeapOrdered cmp copy.pHeap.data := fun hsetup => by
    rw [(cloneSetup_fields hsetup).1]
    exact heapOrdered_nil cmp
  have hshallow : ∀ {q : HeapQueue α} (a : Allocator), HeapOrdered cmp q.pHeap.data →
      HeapOrdered cmp (q.cloneShallow cmp a).2.1.pHeap.data ∧
        ∀ copy, (q.cloneShallow cmp a).1 = some copy → HeapOrdered cmp copy.pHeap.data := by
    intro q a hq
    rw [cloneShallow]
    split
    · exact ⟨hq, fun copy hcopy => absurd hcopy (by simp)⟩
    · next copy a' hsetup =>
      have hboth := ordered_putBackShallow hcmp (popAll cmp q.pHeap.size q.pHeap).1 a'
        (ordered_popAll hcmp q.pHeap.size hq) (hnew hsetup)
      exact ⟨hboth.1, fun copy' hcopy => Option.some.inj hcopy ▸ hboth.2⟩
  have hdeep : ∀ {q : HeapQueue α} (copier : ElementCopier α) (a : Allocator),
      HeapOrdered cmp q.pHeap.data → HeapOrdered cmp (q.cloneDeep cmp copier a).2.1.pHeap.data ∧
        ∀ copy, (q.cloneDeep cmp copier a).1 = some copy → HeapOrdered cmp copy.pHeap.data := by
    intro q copier a hq
    rw [cloneDeep]
    split
    · exact ⟨hq, fun copy hcopy => absurd hcopy (by simp)⟩
    · next copy a' hsetup =>
      have hboth := ordered_putBackDeep hcmp copier (popAll cmp q.pHeap.size q.pHeap).1 a'
        (ordered_popAll hcmp q.pHeap.size hq) (hnew hsetup)
      dsimp only
      split
      · next orig copy' a'' hloop =>
        rw [hloop] at hboth
        exact ⟨hboth.1, fun copy hcopy => absurd hcopy (by simp)⟩
      · next orig copy' a'' hloop =>
        rw [hloop] at hboth
        exact ⟨hboth.1, fun copy hcopy => Option.some.inj hcopy ▸ hboth.2⟩
  induction h with
  | create hcreate =>
    rw [(create_fields hcreate).1]
    exact heapOrdered_nil cmp
  | @call q a c _ ih =>
    rw [(QueueCall.run_eq q a c).2]
    cases c with
    | enqueue data => exact ordered_put hcmp q.pHeap ih data a
    | dequeue => exact ordered_pop hcmp q.pHeap ih
    | clear => exact heapOrdered_nil cmp
    | size => exact ih
  | shallowSource a _ ih => exact (hshallow a ih).1
  | shallowCopy a _ hcopy ih => exact (hshallow a ih).2 _ hcopy
  | deepSource copier a _ ih => exact (hdeep copier a ih).1
  | deepCopy copier a _ hcopy ih => exact (hdeep copier a ih).2 _ hcopy

/-! ## Putting the items back -/

/-- An item that is not above those in the heap stays at the end. -/
theorem put_last {h : BinaryHeap α} (hroom : h.data.length < h.capacity) {item : α}
    (hle : ∀ x ∈ h.data, 0 ≤ cmp x item) (a : Allocator) :
    ∃ h' : BinaryHeap α, h.put cmp item a = (.success, h', a) ∧ h'.data = h.data ++ [item] ∧
      h'.capacity = h.capacity := by
  have hsift : siftUp cmp (h.data ++ [item]) h.data.length item = h.data ++ [item] := by
    have hset : (h.data ++ [item]).set h.data.length item = h.data ++ [item] := by simp
    rw [siftUp]
    split
    · next hpos =>
      have hlt : (h.data.length - 1) / 2 < h.data.length := by omega
      have hparent : (h.data ++ [item])[(h.data.length - 1) / 2]? =
          some (h.data[(h.data.length - 1) / 2]) := by
        rw [List.getElem?_append_left hlt, List.getElem?_eq_getElem hlt]
      dsimp only
      rw [hparent]
      dsimp only
      rw [if_pos (hle _ (List.getElem_mem hlt)), hset]
    · exact hset
  rw [BinaryHeap.put, ensureRoom, dif_neg (Nat.ne_of_lt hroom)]
  exact ⟨_, rfl, hsift, rfl⟩

/-- Items in order are appended to both heaps. -/
theorem putBackShallow_eq (items : List α) {orig : BinaryHeap α} {copy : HeapQueue α}
    (a : Allocator) (hsame : copy.pHeap.data = orig.data)
    (horig : orig.data.length + items.length ≤ orig.capacity)
    (hcopy : orig.data.length + items.length ≤ copy.pHeap.capacity)
    (hsorted : (orig.data ++ items).Pairwise fun x y => cmp y x ≤ 0) (hcmp : IsComparator cmp) :
    ∃ orig' copy', putBackShallow cmp items orig copy a = (orig', copy', a) ∧
      orig'.data = orig.data ++ items ∧ copy'.pHeap.data = orig.data ++ items := by
  induction items generalizing orig copy with
  | nil => exact ⟨orig, copy, rfl, (List.append_nil _).symm, by rw [hsame, List.append_nil]⟩
  | cons item items ih =>
    rw [List.length_cons] at horig hcopy
    have hle : ∀ x ∈ orig.data, 0 ≤ cmp x item := fun x hx =>
      hcmp.nonneg_of_le ((List.pairwise_append.mp hsorted).2.2 x hx item List.mem_cons_self)
    obtain ⟨orig₁, hput, hdata, hcap⟩ := put_last (by omega) hle a
    obtain ⟨heap₁, hput', hdata', hcap'⟩ :=
      put_last (h := copy.pHeap) (by rw [hsame]; omega) (by rwa [hsame]) a
    have hlen : orig₁.data.length = orig.data.length + 1 := by
      rw [hdata, List.length_append, List.length_singleton]
    have happend : ∀ l : List α, orig₁.data ++ l = orig.data ++ item :: l := fun l => by
      rw [hdata, List.append_assoc, List.singleton_append]
    obtain ⟨orig₂, copy₂, hloop, horig₂, hcopy₂⟩ := @ih orig₁ { copy with pHeap := heap₁ }
      (by rw [hdata', hdata, hsame]) (by omega) (by dsimp only; omega) (by rwa [happend])
    rw [happend] at horig₂ hcopy₂
    refine ⟨orig₂, copy₂, ?_, horig₂, hcopy₂⟩
    rw [putBackShallow, hput]
    dsimp only
    rw [HeapQueue.enqueue, hput']
    exact hloop

/-- **The array is rebuilt**: of the source and of the copy, as the sequence that the pops gave. -/
theorem cloneShallow_rebuilds (hcmp : IsComparator cmp) {q copy q' : HeapQueue α}
    {a a' : Allocator} (hordered : HeapOrdered cmp q.pHeap.data)
    (hclone : q.cloneShallow cmp a = (some copy, q', a')) :
    q'.pHeap.data = drain cmp q.size q.pHeap ∧ copy.pHeap.data = drain cmp q.size q.pHeap := by
  rw [cloneShallow] at hclone
  split at hclone
  · exact absurd (Prod.mk.inj hclone).1 (by simp)
  · next new a₁ hsetup =>
    obtain ⟨hempty, hroom⟩ := cloneSetup_fields hsetup
    obtain ⟨hdrain, hitems, hnil, hcap⟩ := popAll_eq cmp q.pHeap.size q.pHeap (le_refl _)
    have hlen : (popAll cmp q.pHeap.size q.pHeap).1.length = q.pHeap.data.length :=
      hitems.length_eq
    have hsize := q.pHeap.size_le
    have hsorted := ((Represents.mk hordered rfl).drain hcmp (le_refl q.pHeap.size)).2
    obtain ⟨orig', copy', hloop, horig, hcopy⟩ := putBackShallow_eq
      (popAll cmp q.pHeap.size q.pHeap).1 a₁ (hempty.trans hnil.symm)
      (by rw [hnil, hlen, hcap, List.length_nil]; omega)
      (by rw [hnil, hlen, List.length_nil, Nat.zero_add]; exact hroom)
      (by rwa [hnil, List.nil_append, hdrain]) hcmp
    rw [hnil, List.nil_append, hdrain] at horig hcopy
    dsimp only at hclone
    rw [hloop] at hclone
    obtain ⟨hsome, hrest⟩ := Prod.mk.inj hclone
    rw [← Option.some.inj hsome, ← (Prod.mk.inj hrest).1]
    exact ⟨horig, hcopy⟩

/-! ## What a caller sees -/

/-- What draining gives depends on the array only. -/
theorem drain_congr {h h' : BinaryHeap α} (hdata : h.data = h'.data) (n : ℕ) :
    drain cmp n h = drain cmp n h' := by
  have hpop : ∀ {h h' : BinaryHeap α}, h.data = h'.data →
      (h.pop cmp).1 = (h'.pop cmp).1 ∧ (h.pop cmp).2.data = (h'.pop cmp).2.data := by
    rintro ⟨data, capacity, hsize, hcap⟩ ⟨_, capacity', hsize', hcap'⟩ rfl
    rw [BinaryHeap.pop, BinaryHeap.pop]
    dsimp only
    cases data[0]? with
    | none => exact ⟨rfl, rfl⟩
    | some top =>
      cases data.getLast? with
      | none => exact ⟨rfl, rfl⟩
      | some last => exact ⟨rfl, rfl⟩
  induction n generalizing h h' with
  | zero => rfl
  | succ n ih =>
    obtain ⟨hitem, hrest⟩ := hpop hdata
    rw [drain, drain]
    cases hfst : h.pop cmp with
    | mk item rest =>
      cases hsnd : h'.pop cmp with
      | mk item' rest' =>
        rw [hfst, hsnd] at hitem hrest
        obtain rfl := hitem
        cases item with
        | none => rfl
        | some item => exact congrArg (item :: ·) (ih hrest)

/-- **Draining after a shallow clone**: the source and the copy give one and the same sequence. It
has the items that the source would have given without the clone, and equal ones at each place; it
is the same sequence when no two different items of the queue compare equal. -/
theorem cloneShallow_drains (hcmp : IsComparator cmp) {q copy q' : HeapQueue α} {a a' : Allocator}
    (hq : Reachable cmp q) (hclone : q.cloneShallow cmp a = (some copy, q', a')) :
    drain cmp copy.size copy.pHeap = drain cmp q'.size q'.pHeap ∧
      (drain cmp q'.size q'.pHeap).Perm (drain cmp q.size q.pHeap) ∧
      List.Forall₂ (fun x y => cmp x y = 0) (drain cmp q'.size q'.pHeap)
        (drain cmp q.size q.pHeap) ∧
      ((∀ x ∈ q.pHeap.data, ∀ y ∈ q.pHeap.data, cmp x y = 0 → x = y) →
        drain cmp q'.size q'.pHeap = drain cmp q.size q.pHeap) := by
  have hordered := hq.ordered hcmp
  obtain ⟨horig, hcopy⟩ := cloneShallow_rebuilds hcmp hordered hclone
  have hbefore := (Represents.mk hordered rfl).drain hcmp (le_refl q.pHeap.size)
  have hitems : (drain cmp q.size q.pHeap).Perm q.pHeap.data := Multiset.coe_eq_coe.mp hbefore.1
  have hordered' : HeapOrdered cmp q'.pHeap.data := by
    have hsource := (hq.shallowSource a).ordered hcmp
    rwa [hclone] at hsource
  have hafter := (Represents.mk hordered' rfl).drain hcmp (le_refl q'.pHeap.size)
  have hperm : (drain cmp q'.size q'.pHeap).Perm (drain cmp q.size q.pHeap) :=
    (Multiset.coe_eq_coe.mp hafter.1).trans (.of_eq horig)
  have hsize : copy.size = q'.size := by
    rw [HeapQueue.size, HeapQueue.size, BinaryHeap.size, BinaryHeap.size, hcopy, horig]
  have hties := forall₂_of_perm hcmp.flip hperm hafter.2 hbefore.2
  refine ⟨?_, hperm, hties.imp fun x y hxy => hcmp.eq_symm hxy, fun hdistinct => ?_⟩
  · rw [hsize]
    exact drain_congr (hcopy.trans horig.symm) _
  · refine eq_of_perm hcmp.flip hperm hafter.2 hbefore.2 fun x hx y hy hxy => ?_
    have hmem : ∀ {z}, z ∈ drain cmp q'.size q'.pHeap → z ∈ q.pHeap.data := fun hz =>
      (hperm.trans hitems).mem_iff.mp hz
    exact (hdistinct y (hmem hy) x (hmem hx) hxy).symm

theorem cloneShallow_drains_two :
    ∃ copy q' a', twoItems.cloneShallow (fun x y => x - y) Allocator.always =
        (some copy, q', a') ∧
      drain (fun x y => x - y) copy.size copy.pHeap =
        drain (fun x y => x - y) q'.size q'.pHeap := by
  obtain ⟨q₀, q₁, hcreate, hfirst, hsecond⟩ := twoItems_built
  have hq₁ : Reachable (fun x y => x - y) q₁ := by
    have hq₀ : Reachable (fun x y => x - y) q₀ := .create hcreate
    have hcall := hq₀.call .always (.enqueue 2)
    rwa [QueueCall.run, hfirst] at hcall
  have htwo : Reachable (fun x y => x - y) twoItems := by
    have hcall := hq₁.call .always (.enqueue 1)
    rwa [QueueCall.run, hsecond] at hcall
  obtain ⟨copy, hcopy⟩ := Option.isSome_iff_exists.mp
    (show (twoItems.cloneShallow (fun x y => x - y) .always).1.isSome = true by decide +kernel)
  exact ⟨copy, _, _, Prod.ext hcopy rfl,
    (cloneShallow_drains subtract_isComparator htwo (Prod.ext hcopy rfl)).1⟩

/-- Items with a priority and a name. -/
def byPriority (x y : ℤ × ℤ) : ℤ := x.1 - y.1

theorem byPriority_isComparator : IsComparator byPriority :=
  isComparator_of_key Prod.fst (fun _ _ => sub_neg) fun _ _ => sub_pos

/-- A new queue, and the one with three items of the same priority. -/
def equalItems : List (ℤ × ℤ) → HeapQueue (ℤ × ℤ)
  | [] => ⟨⟨[], 3, Nat.zero_le 3, by decide⟩, 3⟩
  | item :: items => ((QueueCall.enqueue item).run byPriority (equalItems items) .always).2.1

theorem equalItems_reachable (items : List (ℤ × ℤ)) : Reachable byPriority (equalItems items) := by
  induction items with
  | nil =>
    have hcreate : HeapQueue.create 3 Allocator.always =
      (some (equalItems []), Allocator.always) := rfl
    exact .create hcreate
  | cons item items ih => exact ih.call .always (.enqueue item)

/-- **Three items of the same priority** come out of the source in another order than they would
have without the clone. -/
theorem cloneShallow_reorders_ties :
    ∃ q copy q' a', IsComparator byPriority ∧ Reachable byPriority q ∧
      q.cloneShallow byPriority .always = (some copy, q', a') ∧
      drain byPriority q.size q.pHeap = [(5, 0), (5, 2), (5, 1)] ∧
      drain byPriority q'.size q'.pHeap = [(5, 0), (5, 1), (5, 2)] := by
  obtain ⟨copy, hcopy⟩ := Option.isSome_iff_exists.mp
    (show ((equalItems [(5, 2), (5, 1), (5, 0)]).cloneShallow byPriority .always).1.isSome = true
      by decide +kernel)
  exact ⟨_, copy, _, _, byPriority_isComparator, equalItems_reachable [(5, 2), (5, 1), (5, 0)],
    Prod.ext hcopy rfl, by decide +kernel, by decide +kernel⟩

end Queue

end OvaLib
