import Mathlib.Data.List.Pairwise
import Mathlib.Logic.Relation
import Mathlib.Order.Lattice.Nat
import Mathlib.Tactic.Common
import OvaLib.Foundation.FiniteSet

/-!
# Breadth-first search

A search keeps the vertices it has come to in a queue, takes the first of them off, and appends
those of its successors that it has not come to before. The queue always holds vertices of two
consecutive distances from the source, the nearer ones first.

`Layers` is the state of the search between two steps, with the vertex whose edges are being looked
at and those of its edges that are still to come. It has the order by distance and the closure under
edges in one invariant, because each needs the other: the distance of a new vertex is one more than
that of the current one since no nearer vertex has an edge to it, and those were all looked at
because the queue is in order.

A distance is a number of edges, defined by ways and not by the search. That the search comes to
exactly the vertices in reach needs no distances; that it does so in their order does.

## Main results

* `Layers.pop`, `Layers.skip`, `Layers.visit` — what one step keeps
* `Layers.mem_iff` — an empty queue leaves the vertices in reach
-/

namespace Foundation

open Relation

variable {V : Type*} {E : V → V → Prop} {s u v : V} {m n : ℕ}

/-! ## The number of edges -/

/-- There is a way of `n` edges from `s` to `v`. -/
inductive ReachesIn (E : V → V → Prop) (s : V) : ℕ → V → Prop
  | refl : ReachesIn E s 0 s
  | tail {n : ℕ} {u v : V} : ReachesIn E s n u → E u v → ReachesIn E s (n + 1) v

theorem exists_reachesIn (h : ReflTransGen E s v) : ∃ n, ReachesIn E s n v := by
  induction h with
  | refl => exact ⟨0, .refl⟩
  | tail _ hE ih =>
    obtain ⟨n, hn⟩ := ih
    exact ⟨n + 1, hn.tail hE⟩

/-- The number of edges on a shortest way from `s` to `v`. -/
noncomputable def hops (E : V → V → Prop) (s v : V) : ℕ := sInf {n | ReachesIn E s n v}

theorem hops_le (h : ReachesIn E s n v) : hops E s v ≤ n := Nat.sInf_le h

theorem reachesIn_hops (h : ReflTransGen E s v) : ReachesIn E s (hops E s v) v :=
  Nat.sInf_mem (exists_reachesIn h)

theorem hops_le_succ (h : ReflTransGen E s u) (hE : E u v) : hops E s v ≤ hops E s u + 1 :=
  hops_le ((reachesIn_hops h).tail hE)

/-! ## The queue -/

/-- A search that has taken `order` off its queue and looks at the edges out of `c`, of which those
to `pending` are still to come. -/
structure Layers (E : V → V → Prop) (s : V) (order queue : List V) (c : V) (pending : List V) :
    Prop where
  nodup : (order ++ queue).Nodup
  source : s ∈ order ++ queue
  reach : ∀ v ∈ order ++ queue, ReflTransGen E s v
  reach_current : ReflTransGen E s c
  /-- The edges of the vertices that were taken off have been followed, but for the pending ones. -/
  closed : ∀ u ∈ order, ∀ v, E u v → v ∈ order ++ queue ∨ (u = c ∧ v ∈ pending)
  sorted : (order ++ queue).Pairwise fun u v => hops E s u ≤ hops E s v
  le_queue : ∀ v ∈ queue, hops E s c ≤ hops E s v
  /-- No vertex is further away than one edge from the current one. -/
  near : ∀ v ∈ order ++ queue, hops E s v ≤ hops E s c + 1

namespace Layers

variable {order queue pending : List V} {c x : V}

theorem start (E : V → V → Prop) (s : V) : Layers E s [] [s] s [] where
  nodup := List.nodup_singleton s
  source := List.mem_singleton_self s
  reach v hv := by
    obtain rfl := List.mem_singleton.mp hv
    exact .refl
  reach_current := .refl
  closed u hu := absurd hu List.not_mem_nil
  sorted := List.pairwise_singleton _ s
  le_queue v hv := by
    obtain rfl := List.mem_singleton.mp hv
    exact le_rfl
  near v hv := by
    obtain rfl := List.mem_singleton.mp hv
    exact Nat.le_succ _

/-- **The first vertex is taken off the queue.** -/
theorem pop (h : Layers E s order (v :: queue) c []) (hpending : ∀ w, E v w → w ∈ pending) :
    Layers E s (order ++ [v]) queue v pending := by
  have hsplit : order ++ [v] ++ queue = order ++ v :: queue := by simp
  have hv : v ∈ order ++ v :: queue := by simp
  refine ⟨hsplit ▸ h.nodup, hsplit ▸ h.source, hsplit ▸ h.reach, h.reach v hv,
    fun u hu w huw => ?_, hsplit ▸ h.sorted, ?_, fun w hw => ?_⟩
  · rw [hsplit]
    rcases List.mem_append.mp hu with hu | hu
    · exact .inl ((h.closed u hu w huw).resolve_right fun hnil => List.not_mem_nil hnil.2)
    · obtain rfl := List.mem_singleton.mp hu
      exact .inr ⟨rfl, hpending w huw⟩
  · have hqueue := (List.pairwise_append.mp h.sorted).2.1
    exact (List.pairwise_cons.mp hqueue).1
  · calc hops E s w ≤ hops E s c + 1 := h.near w (hsplit ▸ hw)
      _ ≤ hops E s v + 1 := Nat.succ_le_succ (h.le_queue v List.mem_cons_self)

/-- An edge to a vertex the search has come to. -/
theorem skip (h : Layers E s order queue c (x :: pending)) (hx : x ∈ order ++ queue) :
    Layers E s order queue c pending :=
  { h with
    closed := fun u hu v huv => by
      rcases h.closed u hu v huv with hv | ⟨rfl, hv⟩
      · exact .inl hv
      · rcases List.mem_cons.mp hv with rfl | hv
        · exact .inl hx
        · exact .inr ⟨rfl, hv⟩ }

/-- A way to a vertex that the search has not come to leaves the vertices it has come to from `c`
or from the queue, so it is longer than the shortest way to `c`. -/
theorem lt_of_notMem (h : Layers E s order queue c pending) (hx : x ∉ order ++ queue)
    (hreach : ReachesIn E s n x) : hops E s c < n := by
  have hway : ∀ {n x}, ReachesIn E s n x → x ∈ order ++ queue ∨ hops E s c < n := by
    intro n x hreach
    induction hreach with
    | refl => exact .inl h.source
    | @tail n u v hu huv ih =>
      rcases ih with hmem | hlt
      · have hle := hops_le hu
        rcases List.mem_append.mp hmem with horder | hqueue
        · rcases h.closed u horder v huv with hv | ⟨rfl, -⟩
          · exact .inl hv
          · exact .inr (Nat.lt_succ_of_le hle)
        · exact .inr (Nat.lt_succ_of_le ((h.le_queue u hqueue).trans hle))
      · exact .inr (Nat.lt_succ_of_lt hlt)
  exact (hway hreach).resolve_left hx

/-- **An edge to a vertex that the search has not come to.** -/
theorem visit (h : Layers E s order queue c (x :: pending)) (hx : x ∉ order ++ queue)
    (hedge : E c x) : Layers E s order (queue ++ [x]) c pending := by
  have hreach : ReflTransGen E s x := h.reach_current.tail hedge
  have hhops : hops E s x = hops E s c + 1 :=
    le_antisymm (hops_le_succ h.reach_current hedge) (h.lt_of_notMem hx (reachesIn_hops hreach))
  have hmem : ∀ {v}, v ∈ order ++ (queue ++ [x]) ↔ v ∈ order ++ queue ∨ v = x := by
    intro v
    rw [← List.append_assoc, List.mem_append, List.mem_singleton]
  refine ⟨?_, hmem.mpr (.inl h.source), fun v hv => ?_, h.reach_current, fun u hu v huv => ?_, ?_,
    fun v hv => ?_, fun v hv => ?_⟩
  · rw [← List.append_assoc]
    exact List.nodup_append.mpr ⟨h.nodup, List.nodup_singleton x, fun a ha b hb hab => by
      rw [hab, List.mem_singleton.mp hb] at ha
      exact hx ha⟩
  · rcases hmem.mp hv with hv | rfl
    · exact h.reach v hv
    · exact hreach
  · rcases h.closed u hu v huv with hv | ⟨rfl, hv⟩
    · exact .inl (hmem.mpr (.inl hv))
    · rcases List.mem_cons.mp hv with rfl | hv
      · exact .inl (hmem.mpr (.inr rfl))
      · exact .inr ⟨rfl, hv⟩
  · rw [← List.append_assoc]
    refine List.pairwise_append.mpr ⟨h.sorted, List.pairwise_singleton _ x, fun a ha b hb => ?_⟩
    rw [List.mem_singleton.mp hb, hhops]
    exact h.near a ha
  · rcases List.mem_append.mp hv with hv | hv
    · exact h.le_queue v hv
    · rw [List.mem_singleton.mp hv, hhops]
      exact Nat.le_succ _
  · rcases hmem.mp hv with hv | rfl
    · exact h.near v hv
    · exact hhops.le

/-- The search comes to each vertex once. -/
theorem length_le (h : Layers E s order queue c pending) {vertices : Finset V}
    (hvertices : ∀ v, ReflTransGen E s v → v ∈ vertices) :
    (order ++ queue).length ≤ vertices.card := by
  exact length_le_card_of_nodup h.nodup fun v hv => hvertices v (h.reach v hv)

/-- **The search is over**: it has taken the vertices in reach off the queue. -/
theorem mem_iff (h : Layers E s order [] c []) : v ∈ order ↔ ReflTransGen E s v := by
  have hnil : order ++ [] = order := List.append_nil order
  refine ⟨fun hv => h.reach v (hnil.symm ▸ hv), fun hv => ?_⟩
  induction hv with
  | refl => exact hnil ▸ h.source
  | tail _ huv ih =>
    have hmem := (h.closed _ ih _ huv).resolve_right fun hpending => List.not_mem_nil hpending.2
    exact hnil ▸ hmem

end Layers

end Foundation
