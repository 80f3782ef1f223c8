import OvaLib.Graph.Dijkstra
import OvaLib.Heap.BinaryHeapRefinement

/-!
# A full queue

`binary_heap_put` refuses an item when the heap holds `INT_MAX` of them, whatever memory there is,
and `graph_dijkstra_impl` does not look at what the put returns. The label of the vertex has been
lowered by then, so a vertex whose put is refused has its edges never looked at with the new label,
and what lies behind it keeps labels that are too large.

The graphs here have `K` hubs, `N` leaves and a target behind each leaf. The hubs come out of the
queue one after another, and each improves the labels of all leaves, to values that are still above
those of all hubs. So none of the entries of the leaves comes out before the last hub, and by then
there are `K * N` of them; with more than `INT_MAX` the entry of some leaf is missing.

## Why this graph

With positive weights a vertex is improved at most once by each vertex that comes out before it, and
a vertex that has come out is not improved again. So many nodes for few vertices need vertices that
are improved again and again while none of them comes out. The leaves are such: their labels are
above those of all hubs, and each hub takes its turn before the first of them. With negative edges
far smaller graphs do the same, but there one could suspect the sign of the weights.

The target behind the leaf is what makes the loss visible. The label of the leaf itself is right,
since it is lowered before the put that fails; only what lies behind the leaf is not.

## What has to be followed

The queue is a heap whose order among equal labels is not fixed by anything, so the proof does not
say which leaf is lost. It says what the queue holds up to order, and finds the missing node by
counting: there are `K * N` nodes for leaves, and the queue has fewer. From there on the state is
described only as far as that leaf and its target are concerned.

## Main results

* `DijkstraState.Sound.foldl`, `DijkstraState.foldl_dist` — one turn, whether or not there is room
* `Hubs.step`, `Hubs.last` — the turns of the hubs
* `Lost.step` — the target of a leaf without its entry is never reached
* `dijkstra_fullQueue` — a wrong answer with status 1
-/

namespace OvaLib

namespace Graph

open Foundation
open BinaryHeap (ordered_put)

theorem pqNodeCmp_isComparator : IsComparator pqNodeCmp := by
  refine isComparator_of_key (fun node => OrderDual.toDual node.dist) (fun a b => ?_)
    fun a b => ?_ <;> rw [pqNodeCmp]
  · split
    · next hlt => simp [hlt.not_gt]
    · split <;> simp_all
  · split
    · next hlt => simp [hlt]
    · split <;> simp_all

theorem dist_le_of_pqNodeCmp {a b : PqNode} (h : pqNodeCmp a b ≤ 0) : b.dist ≤ a.dist := by
  rw [pqNodeCmp] at h
  split at h
  · exact absurd h (by norm_num)
  · next hlt => exact not_lt.mp hlt

namespace DijkstraState

variable {g : GraphImpl} {v : ℕ} {es : List (ℕ × WithTop ℚ)} {st : DijkstraState}

/-! ## One turn -/

/-- What every turn keeps, whether or not there is room: the allocator, a capacity from which the
heap can grow, and the order of the heap. -/
structure Sound (st : DijkstraState) : Prop where
  allocator : st.allocator = Allocator.always
  capacity_pos : 0 < st.pq.capacity
  ordered : HeapOrdered pqNodeCmp st.pq.data

/-- The edges of a vertex, none of which leads back to it. Then its label stays the same while they
are gone through, which the source reads anew for each of them. -/
def NoLoop (v : ℕ) (es : List (ℕ × WithTop ℚ)) : Prop := ∀ e ∈ es, e.2 ≠ ⊤ → e.1 ≠ v

theorem NoLoop.tail {e : ℕ × WithTop ℚ} (h : NoLoop v (e :: es)) : NoLoop v es :=
  fun e' he' => h e' (List.mem_cons_of_mem _ he')

theorem NoLoop.relaxEdge_dist {e : ℕ × WithTop ℚ} (h : NoLoop v (e :: es)) :
    (relaxEdge v st e).dist v = st.dist v := by
  rw [DijkstraState.relaxEdge_dist]
  by_cases he : e.2 = ⊤
  · rw [relax_of_not_lt (by simp [he])]
  · exact relax_of_ne (h e List.mem_cons_self he).symm _ _ _

/-- A node that is pushed goes into the queue, unless the queue is full. The two cases are what the
caller in the source does not tell apart. -/
theorem Sound.push (h : Sound st) (node : PqNode) :
    Sound (st.push node) ∧
      ((st.push node).pq.data.Perm (node :: st.pq.data) ∨
        (st.push node).pq = st.pq ∧ intMax ≤ st.pq.data.length) := by
  obtain ⟨arena, harena⟩ := st.arena.alloc_always
  have hsound := ordered_put pqNodeCmp_isComparator st.pq h.ordered node Allocator.always
  have halloc := BinaryHeap.put_always_allocator pqNodeCmp st.pq node
  rw [DijkstraState.push, h.allocator, harena]
  dsimp only
  by_cases hsize : st.pq.data.length < intMax
  · obtain ⟨pq, hput, hperm, hcap⟩ := BinaryHeap.put_always pqNodeCmp h.capacity_pos hsize node
    rw [hput] at hsound ⊢
    exact ⟨⟨rfl, hcap, hsound⟩, .inl hperm⟩
  · rcases BinaryHeap.put_cases pqNodeCmp st.pq node Allocator.always with hperm | hsame
    · have hlen := hperm.length_eq
      have hmax := (st.pq.put pqNodeCmp node Allocator.always).2.1.size_le.trans
        (st.pq.put pqNodeCmp node Allocator.always).2.1.capacity_le
      rw [List.length_cons] at hlen
      omega
    · exact ⟨⟨halloc, by rw [hsame]; exact h.capacity_pos, hsound⟩,
        .inr ⟨hsame, not_lt.mp hsize⟩⟩

/-- The nodes that the edges `es` of `v` put into the queue: at most one for each head, with a label
that improves the one of the head. Nothing is said of edges whose node is missing. -/
structure Adds (st : DijkstraState) (v : ℕ) (es : List (ℕ × WithTop ℚ)) (new : List PqNode) :
    Prop where
  length_le : new.length ≤ es.length
  nodup : (new.map PqNode.vertex).Nodup
  improves : ∀ node ∈ new, node.dist < st.dist node.vertex
  edge : ∀ node ∈ new, ∃ e ∈ es, e.2 ≠ ⊤ ∧ node = ⟨e.1, st.dist v + e.2⟩

theorem Adds.nil (st : DijkstraState) (v : ℕ) (es : List (ℕ × WithTop ℚ)) : st.Adds v es [] :=
  ⟨Nat.zero_le _, List.nodup_nil, by simp, by simp⟩

/-- One edge out of `v`: the label is lowered if it improves, and a node follows if there is room.
-/
theorem Sound.relaxEdge (h : Sound st) (v : ℕ) (e : ℕ × WithTop ℚ) :
    Sound (relaxEdge v st e) ∧
      (∃ new, (DijkstraState.relaxEdge v st e).pq.data.Perm (new ++ st.pq.data) ∧
        st.Adds v [e] new) ∧
      (st.pq.data.length < intMax → st.dist v + e.2 < st.dist e.1 →
        ⟨e.1, st.dist v + e.2⟩ ∈ (DijkstraState.relaxEdge v st e).pq.data) := by
  rw [DijkstraState.relaxEdge]
  split
  · next hlt =>
    have hset : Sound (st.setDist e.1 (st.dist v + e.2)) := ⟨h.allocator, h.capacity_pos, h.ordered⟩
    obtain ⟨hsound, hcases⟩ := hset.push ⟨e.1, st.dist v + e.2⟩
    refine ⟨hsound, ?_, fun hsize _ => ?_⟩
    · rcases hcases with hperm | ⟨hsame, -⟩
      · refine ⟨[⟨e.1, st.dist v + e.2⟩], hperm, le_rfl, List.nodup_singleton _,
          fun node hnode => ?_, fun node hnode => ?_⟩
        · obtain rfl := List.mem_singleton.mp hnode
          exact hlt
        · refine ⟨e, List.mem_singleton_self e, fun htop => ?_, List.mem_singleton.mp hnode⟩
          rw [htop, WithTop.add_top] at hlt
          exact not_top_lt hlt
      · exact ⟨[], hsame ▸ .refl _, .nil _ _ _⟩
    · rcases hcases with hperm | ⟨-, hfull⟩
      · exact hperm.mem_iff.mpr List.mem_cons_self
      · exact absurd hsize (not_lt.mpr hfull)
  · next hge =>
    exact ⟨h, ⟨[], .refl _, .nil _ _ _⟩, fun _ hlt => absurd hlt hge⟩

/-- **All edges out of `v`**: what they may add, and nothing is taken out. -/
theorem Sound.foldl {w : ℕ → WithTop ℚ} (h : Sound st) (hloop : NoLoop v es)
    (hes : ∀ e ∈ es, ∀ z : ℚ, e.2 = z → w e.1 = z) :
    Sound (es.foldl (DijkstraState.relaxEdge v) st) ∧
      ∃ new, (es.foldl (DijkstraState.relaxEdge v) st).pq.data.Perm (new ++ st.pq.data) ∧
        st.Adds v es new := by
  induction es generalizing st with
  | nil => exact ⟨h, [], .refl _, .nil _ _ _⟩
  | cons e es ih =>
    obtain ⟨hsound, ⟨new₁, hperm₁, hadds₁⟩, -⟩ := h.relaxEdge v e
    obtain ⟨hsound', new₂, hperm₂, hadds₂⟩ :=
      ih hsound hloop.tail fun e he => hes e (List.mem_cons_of_mem _ he)
    have hlen := hadds₁.length_le
    have hlen' := hadds₂.length_le
    have hdist : ∀ u, (DijkstraState.relaxEdge v st e).dist u ≤ st.dist u := fun u => by
      rw [relaxEdge_dist]
      exact relax_le _ _ _ _ _
    have hedge₂ : ∀ node ∈ new₂, ∃ e ∈ es, e.2 ≠ ⊤ ∧ node = ⟨e.1, st.dist v + e.2⟩ := by
      intro node hnode
      obtain ⟨e', he', hne, heq⟩ := hadds₂.edge node hnode
      rw [hloop.relaxEdge_dist] at heq
      exact ⟨e', he', hne, heq⟩
    refine ⟨hsound', new₂ ++ new₁, ?_, ?_, ?_, fun node hnode => ?_, fun node hnode => ?_⟩
    · rw [List.append_assoc]
      exact hperm₂.trans (hperm₁.append_left new₂)
    · rw [List.length_singleton] at hlen
      rw [List.length_append, List.length_cons]
      omega
    · rw [List.map_append, List.nodup_append]
      refine ⟨hadds₂.nodup, hadds₁.nodup, ?_⟩
      rintro u hu₂ u' hu₁ rfl
      obtain ⟨node₂, hnode₂, rfl⟩ := List.mem_map.mp hu₂
      obtain ⟨node₁, hnode₁, hsame⟩ := List.mem_map.mp hu₁
      obtain ⟨e₁, he₁, hne₁, rfl⟩ := hadds₁.edge node₁ hnode₁
      obtain rfl := List.mem_singleton.mp he₁
      obtain ⟨e₂, he₂, hne₂, rfl⟩ := hedge₂ node₂ hnode₂
      -- a second edge to the same head has the same weight, and improves nothing any more
      obtain ⟨z₁, hz₁⟩ := WithTop.ne_top_iff_exists.mp hne₁
      obtain ⟨z₂, hz₂⟩ := WithTop.ne_top_iff_exists.mp hne₂
      have hw₁ := hes e₁ List.mem_cons_self z₁ hz₁.symm
      have hw₂ := hes e₂ (List.mem_cons_of_mem _ he₂) z₂ hz₂.symm
      have hhead : e₁.1 = e₂.1 := hsame
      have himproves := hadds₂.improves _ hnode₂
      have hle := relax_head_le st.dist v e₁.1 e₁.2
      rw [← relaxEdge_dist, hhead, ← hz₁, ← hw₁, hhead, hw₂, hz₂] at hle
      exact absurd himproves (not_lt.mpr hle)
    · rcases List.mem_append.mp hnode with hnode | hnode
      · exact (hadds₂.improves node hnode).trans_le (hdist _)
      · exact hadds₁.improves node hnode
    · rcases List.mem_append.mp hnode with hnode | hnode
      · obtain ⟨e', he', hrest⟩ := hedge₂ node hnode
        exact ⟨e', List.mem_cons_of_mem _ he', hrest⟩
      · obtain ⟨e', he', hrest⟩ := hadds₁.edge node hnode
        obtain rfl := List.mem_singleton.mp he'
        exact ⟨e', List.mem_cons_self, hrest⟩

/-- **With room for all of them**, every edge that improves a label has its node in the queue. -/
theorem Sound.foldl_mem {w : ℕ → WithTop ℚ} (h : Sound st) (hloop : NoLoop v es)
    (hes : ∀ e ∈ es, ∀ z : ℚ, e.2 = z → w e.1 = z)
    (hroom : st.pq.data.length + es.length ≤ intMax) :
    ∀ e ∈ es, st.dist v + e.2 < st.dist e.1 →
      (⟨e.1, st.dist v + e.2⟩ : PqNode) ∈ (es.foldl (DijkstraState.relaxEdge v) st).pq.data := by
  induction es generalizing st with
  | nil => exact fun e he => absurd he List.not_mem_nil
  | cons e es ih =>
    intro e' he' hlt
    rw [List.length_cons] at hroom
    obtain ⟨hsound, ⟨new, hperm, hadds⟩, hmem⟩ := h.relaxEdge v e
    obtain ⟨-, new', hperm', -⟩ := hsound.foldl hloop.tail fun e he =>
      hes e (List.mem_cons_of_mem _ he)
    have hlen := hadds.length_le
    have hkeep : ∀ node ∈ (DijkstraState.relaxEdge v st e).pq.data,
        node ∈ (es.foldl (DijkstraState.relaxEdge v)
          (DijkstraState.relaxEdge v st e)).pq.data := fun node hnode =>
      hperm'.mem_iff.mpr (List.mem_append_right _ hnode)
    -- the weight of an edge is determined by its head, so a second edge to it adds nothing
    have htop : ∀ {e : ℕ × WithTop ℚ}, st.dist v + e.2 < st.dist e.1 → ∃ z : ℚ, e.2 = z := by
      intro e hlt
      obtain ⟨x, hx⟩ := WithTop.ne_top_iff_exists.mp (ne_top_of_lt hlt)
      obtain ⟨-, z, -, hz, -⟩ := exists_of_add_eq hx.symm
      exact ⟨z, hz⟩
    by_cases heq : e'.1 = e.1 ∧ st.dist v + e.2 < st.dist e.1
    · obtain ⟨hhead, hlt'⟩ := heq
      obtain ⟨z', hz'⟩ := htop hlt
      obtain ⟨z, hz⟩ := htop hlt'
      have hsame : e' = e := by
        refine Prod.ext hhead ?_
        rw [hz', hz, ← hes e' he' z' hz', ← hes e List.mem_cons_self z hz, hhead]
      rw [hsame]
      exact hkeep _ (hmem (by omega) hlt')
    · have hrest : e' ∈ es := by
        refine (List.mem_cons.mp he').resolve_left fun hsame => heq ⟨by rw [hsame], ?_⟩
        rw [← hsame]
        exact hlt
      have hdist : (DijkstraState.relaxEdge v st e).dist e'.1 = st.dist e'.1 := by
        rw [relaxEdge_dist]
        by_cases hhead : e'.1 = e.1
        · rw [relax_of_not_lt fun hlt' => heq ⟨hhead, hlt'⟩]
        · exact relax_of_ne hhead _ _ _
      have hlen' := hperm.length_eq
      rw [List.length_append] at hlen'
      rw [List.length_singleton] at hlen
      have hmem' := ih hsound hloop.tail (fun e he => hes e (List.mem_cons_of_mem _ he))
        (by omega) e' hrest
      rw [hloop.relaxEdge_dist, hdist] at hmem'
      exact hmem' hlt

theorem foldl_relaxEdge_dist : (es.foldl (relaxEdge v) st).dist =
    es.foldl (fun d e => relax d v e.1 e.2) st.dist := by
  induction es generalizing st with
  | nil => rfl
  | cons e es ih => rw [List.foldl_cons, List.foldl_cons, ih, relaxEdge_dist]

/-- **The labels after a turn** are the smaller ones of the labels before it and the labels over
its vertex. -/
theorem foldl_dist (h : WellFormed g) (hv : v ∈ g.vertices) (hloop : g.weights v v = ⊤) (u : ℕ) :
    ((g.outEdges v).foldl (relaxEdge v) st).dist u =
      min (st.dist u) (st.dist v + g.weights v u) := by
  rw [foldl_relaxEdge_dist, foldl_relax hloop fun e he => weights_of_mem h hv he]
  split
  · rfl
  · next hnone =>
    -- an edge that leads there is among the edges of the vertex
    have htop : g.weights v u = ⊤ := by
      by_contra hne
      obtain ⟨z, hz⟩ := WithTop.ne_top_iff_exists.mp hne
      exact hnone ⟨(u, z), (mem_outEdges h hv z).mpr hz.symm, rfl, WithTop.coe_ne_top⟩
    rw [htop, WithTop.add_top, min_eq_left le_top]

/-- A turn takes out a node that is nearest, and goes through the edges of its vertex unless the
node is out of date. -/
theorem Sound.step_spec (h : Sound st) (g : GraphImpl) :
    (st.pq.data = [] ∧ st.step g = none) ∨
    ∃ cur pq, (cur :: pq.data).Perm st.pq.data ∧ (∀ node ∈ st.pq.data, cur.dist ≤ node.dist) ∧
      Sound { st with pq := pq } ∧
      ((st.dist cur.vertex < cur.dist ∧ st.step g = some { st with pq := pq }) ∨
        cur.dist ≤ st.dist cur.vertex ∧ st.step g =
          some ((g.outEdges cur.vertex).foldl (DijkstraState.relaxEdge cur.vertex)
            { st with pq := pq })) := by
  have hbag : BinaryHeap.Represents pqNodeCmp st.pq st.pq.data := ⟨h.ordered, rfl⟩
  rcases hbag.pop pqNodeCmp_isComparator with ⟨hpop, hnil⟩ |
      ⟨cur, pq, B, hpop, hcons, hgreatest, hrest, hcap⟩
  · refine .inl ⟨Multiset.coe_eq_zero _ |>.mp hnil, ?_⟩
    rw [step, hpop]
  · right
    have hperm : (cur :: pq.data).Perm st.pq.data := by
      rw [← Multiset.coe_eq_coe, ← Multiset.cons_coe, hrest.items, hcons]
    refine ⟨cur, pq, hperm, fun node hnode => ?_, ⟨h.allocator, hcap ▸ h.capacity_pos,
      hrest.ordered⟩, ?_⟩
    · exact dist_le_of_pqNodeCmp (hgreatest.2 node (Multiset.mem_coe.mpr hnode))
    · rw [step, hpop]
      dsimp only
      by_cases hstale : cur.dist > st.dist cur.vertex
      · exact .inl ⟨hstale, if_pos hstale⟩
      · exact .inr ⟨not_lt.mp hstale, if_neg hstale⟩

end DijkstraState

/-! ## Hubs and leaves -/

/-- A whole number as a label. -/
def label (n : ℕ) : WithTop ℚ := ((n : ℚ) : WithTop ℚ)

theorem label_ne_top (n : ℕ) : label n ≠ ⊤ := WithTop.coe_ne_top

theorem label_le {m n : ℕ} : label m ≤ label n ↔ m ≤ n := by
  rw [label, label, WithTop.coe_le_coe, Nat.cast_le]

theorem label_lt {m n : ℕ} : label m < label n ↔ m < n := by
  rw [label, label, WithTop.coe_lt_coe, Nat.cast_lt]

theorem label_inj {m n : ℕ} : label m = label n ↔ m = n := by
  rw [label, label, WithTop.coe_inj, Nat.cast_inj]

theorem label_add (m n : ℕ) : label m + label n = label (m + n) := by
  rw [label, label, label, Nat.cast_add, WithTop.coe_add]

/-- The hubs are `0` to `K - 1`, each with an edge to the next one; the leaves are the next `N`
vertices, and the target of a leaf is `N` further on. The later the hub, the shorter the way over it
to the leaves. -/
def hubWeights (K N u v : ℕ) : WithTop ℚ :=
  if u < K then
    if v < K then if v = u + 1 then label 1 else ⊤
    else if v < K + N then label (2 * (K - u)) else ⊤
  else if u < K + N ∧ v = u + N then label 1 else ⊤

variable {K N : ℕ}

theorem hubWeights_lt {u v : ℕ} (h : hubWeights K N u v ≠ ⊤) : u < K + 2 * N ∧ v < K + 2 * N := by
  rw [hubWeights] at h
  split_ifs at h <;> first | omega | exact absurd rfl h

/-- The edges out of a leaf. -/
theorem hubWeights_leaf {u v : ℕ} (hu : K ≤ u) :
    hubWeights K N u v = if u < K + N ∧ v = u + N then label 1 else ⊤ := by
  rw [hubWeights, if_neg (by omega)]

/-- The edges out of a hub. -/
theorem hubWeights_hub {u v : ℕ} (hu : u < K) (hv : hubWeights K N u v ≠ ⊤) :
    (v = u + 1 ∧ v < K ∧ hubWeights K N u v = label 1) ∨
      (K ≤ v ∧ v < K + N ∧ hubWeights K N u v = label (2 * (K - u))) := by
  rw [hubWeights] at hv ⊢
  split_ifs at hv ⊢ <;> first | omega | exact absurd rfl hv | simp_all

/-- The labels after the turns of the first `i` hubs: the next hub has its label as well, later hubs
and all targets have none, and a leaf the one over the last hub that had its turn. -/
def hubDist (K N i u : ℕ) : WithTop ℚ :=
  if u < K then if u ≤ i then label u else ⊤
  else if u < K + N then if i = 0 then ⊤ else label (2 * K + 1 - i) else ⊤

/-- The graph has these weights, and there are no edges twice. The second bounds what a turn can put
into the queue. -/
structure IsHubGraph (K N : ℕ) (g : GraphImpl) : Prop where
  wellFormed : WellFormed g
  weights_eq : ∀ u v, g.weights u v = hubWeights K N u v
  length_le : ∀ u, (g.outEdges u).length ≤ {v | hubWeights K N u v ≠ ⊤}.ncard

variable {g : GraphImpl}

namespace IsHubGraph

theorem head_of_mem (h : IsHubGraph K N g) {v : ℕ} (hv : v ∈ g.vertices) {e : ℕ × WithTop ℚ}
    (he : e ∈ g.outEdges v) (hne : e.2 ≠ ⊤) : hubWeights K N v e.1 = e.2 := by
  obtain ⟨z, hz⟩ := WithTop.ne_top_iff_exists.mp hne
  rw [← h.weights_eq, ← hz]
  exact DijkstraState.weights_of_mem h.wellFormed hv he z hz.symm

theorem noLoop (h : IsHubGraph K N g) {v : ℕ} (hv : v ∈ g.vertices) :
    DijkstraState.NoLoop v (g.outEdges v) := by
  intro e he hne hloop
  have hw := h.head_of_mem hv he hne
  rw [hloop] at hw
  rcases Nat.lt_or_ge v K with hlt | hge
  · rcases hubWeights_hub hlt (hw ▸ hne) with ⟨hnext, -⟩ | ⟨hleaf, -⟩ <;> omega
  · rw [hubWeights_leaf hge] at hw
    split at hw
    · omega
    · exact hne hw.symm

/-- A hub has an edge to each leaf, and one to the next hub. -/
theorem length_hub (h : IsHubGraph K N g) {v : ℕ} (hv : v < K) :
    (g.outEdges v).length ≤ N + 1 := by
  refine (h.length_le v).trans ?_
  have hsub : {u | hubWeights K N v u ≠ ⊤} ⊆
      ↑(insert (v + 1) ((Finset.range N).image (K + ·))) := by
    intro u hu
    rcases hubWeights_hub hv hu with ⟨rfl, -⟩ | ⟨hle, hlt, -⟩
    · exact Finset.mem_insert_self _ _
    · refine Finset.mem_insert_of_mem (Finset.mem_image.mpr ⟨u - K, ?_, by omega⟩)
      exact Finset.mem_range.mpr (by omega)
  refine (Set.ncard_le_ncard hsub (Finset.finite_toSet _)).trans ?_
  rw [Set.ncard_coe_finset]
  refine (Finset.card_insert_le _ _).trans (Nat.succ_le_succ ?_)
  exact Finset.card_image_le.trans (Finset.card_range N).le

/-- A leaf has one edge, and a target has none. -/
theorem length_leaf (h : IsHubGraph K N g) {v : ℕ} (hv : K ≤ v) :
    (g.outEdges v).length ≤ if v < K + N then 1 else 0 := by
  refine (h.length_le v).trans ?_
  split
  · next hlt =>
    have hsub : {u | hubWeights K N v u ≠ ⊤} ⊆ {v + N} := by
      intro u hu
      have hne : hubWeights K N v u ≠ ⊤ := hu
      rw [hubWeights_leaf hv] at hne
      split at hne
      · next heq => exact heq.2
      · exact absurd rfl hne
    exact (Set.ncard_le_ncard hsub (Set.finite_singleton _)).trans_eq (Set.ncard_singleton _)
  · next hge =>
    have hempty : {u | hubWeights K N v u ≠ ⊤} = ∅ := by
      refine Set.eq_empty_of_forall_notMem fun u hu => hu ?_
      rw [hubWeights_leaf hv, if_neg fun h => hge h.1]
    rw [hempty, Set.ncard_empty]

/-- The labels after a turn. -/
theorem foldl_dist (h : IsHubGraph K N g) {v : ℕ} (hv : v ∈ g.vertices) (st : DijkstraState)
    (u : ℕ) : ((g.outEdges v).foldl (DijkstraState.relaxEdge v) st).dist u =
      min (st.dist u) (st.dist v + hubWeights K N v u) := by
  have hloop : g.weights v v = ⊤ := by
    by_contra hne
    obtain ⟨z, hz⟩ := WithTop.ne_top_iff_exists.mp hne
    exact h.noLoop hv (v, z) ((mem_outEdges h.wellFormed hv z).mpr hz.symm) WithTop.coe_ne_top rfl
  rw [DijkstraState.foldl_dist h.wellFormed hv hloop, h.weights_eq]

end IsHubGraph

/-- The node that the edges of hub `k` put into the queue for leaf `j`. -/
def leafNode (K k j : ℕ) : PqNode := ⟨K + j, label (2 * K - k)⟩

/-- **After the turns of the first `i` hubs** the queue holds the node of the next hub, and all the
nodes that were put there for the leaves. -/
structure Hubs (K N i : ℕ) (st : DijkstraState) (rest : List PqNode) : Prop where
  sound : st.Sound
  dist : ∀ u, st.dist u = hubDist K N i u
  queue : st.pq.data.Perm (⟨i, label i⟩ :: rest)
  others : ∀ node ∈ rest, K ≤ node.vertex ∧ node.vertex < K + N ∧ label (2 * K + 1 - i) ≤ node.dist
  leaves : ∀ k < i, ∀ j < N, leafNode K k j ∈ rest
  length_le : rest.length ≤ i * N

theorem leafNode_inj {k k' j j' : ℕ} (hk : k < K) (hk' : k' < K)
    (h : leafNode K k j = leafNode K k' j') : k = k' ∧ j = j' := by
  obtain ⟨hvertex, hdist⟩ := PqNode.mk.inj h
  rw [label_inj] at hdist
  omega

theorem IsHubGraph.mem_vertices (h : IsHubGraph K N g) (hN : 0 < N) {v : ℕ} (hv : v < K + 2 * N) :
    v ∈ g.vertices := by
  have hedge : ∀ {u w : ℕ}, hubWeights K N u w ≠ ⊤ → u ∈ g.vertices ∧ w ∈ g.vertices := by
    intro u w hne
    rw [← h.weights_eq] at hne
    exact GraphImpl.mem_of_weights_ne_top hne
  rcases Nat.lt_or_ge v K with hhub | hge
  · refine (hedge (u := v) (w := K) ?_).1
    rw [hubWeights, if_pos hhub, if_neg (lt_irrefl K), if_pos (by omega)]
    exact label_ne_top _
  · rcases Nat.lt_or_ge v (K + N) with hleaf | htarget
    · refine (hedge (u := v) (w := v + N) ?_).1
      rw [hubWeights_leaf hge, if_pos ⟨hleaf, rfl⟩]
      exact label_ne_top _
    · refine (hedge (u := v - N) (w := v) ?_).2
      rw [hubWeights_leaf (by omega), if_pos ⟨by omega, by omega⟩]
      exact label_ne_top _

section Labels

variable {i u : ℕ}

theorem hubDist_hub (hu : u < K) : hubDist K N i u = if u ≤ i then label u else ⊤ := if_pos hu

theorem hubDist_leaf (hu : K ≤ u) (hu' : u < K + N) :
    hubDist K N i u = if i = 0 then ⊤ else label (2 * K + 1 - i) := by
  rw [hubDist, if_neg (by omega), if_pos hu']

theorem hubDist_target (hu : K + N ≤ u) : hubDist K N i u = ⊤ := by
  rw [hubDist, if_neg (by omega), if_neg (by omega)]

/-- The labels that the turn of a hub leaves behind. -/
theorem hubDist_succ (hi : i < K) (u : ℕ) :
    min (hubDist K N i u) (label i + hubWeights K N i u) = hubDist K N (i + 1) u := by
  rcases Nat.lt_or_ge u K with hhub | hge
  · have hw : hubWeights K N i u = if u = i + 1 then label 1 else ⊤ := by
      rw [hubWeights, if_pos hi, if_pos hhub]
    rw [hw, hubDist_hub hhub, hubDist_hub hhub]
    by_cases hnext : u = i + 1
    · rw [if_pos hnext, if_neg (by omega), if_pos (by omega), label_add, min_eq_right le_top,
        hnext]
    · rw [if_neg hnext, WithTop.add_top, min_eq_left le_top]
      exact if_congr (by omega) rfl rfl
  · rcases Nat.lt_or_ge u (K + N) with hleaf | htarget
    · have hw : hubWeights K N i u = label (2 * (K - i)) := by
        rw [hubWeights, if_pos hi, if_neg (by omega), if_pos hleaf]
      rw [hw, label_add, hubDist_leaf hge hleaf, hubDist_leaf hge hleaf,
        if_neg (Nat.succ_ne_zero i), show i + 2 * (K - i) = 2 * K + 1 - (i + 1) by omega]
      split
      · exact min_eq_right le_top
      · exact min_eq_right (label_le.mpr (by omega))
    · have hw : hubWeights K N i u = ⊤ := by
        rw [hubWeights, if_pos hi, if_neg (by omega), if_neg (by omega)]
      rw [hw, WithTop.add_top, min_eq_left le_top, hubDist_target htarget, hubDist_target htarget]

end Labels

/-- What the turn of hub `i` does, whether or not there is room for all its nodes. Both the turns
that fill the queue and the one that finds it full are instances. -/
structure HubTurn (K N i : ℕ) (g : GraphImpl) (st st' : DijkstraState)
    (rest new : List PqNode) : Prop where
  step_eq : st.step g = some st'
  sound : st'.Sound
  dist : ∀ u, st'.dist u = hubDist K N (i + 1) u
  queue : st'.pq.data.Perm (new ++ rest)
  length_le : new.length ≤ N + 1
  nodup : (new.map PqNode.vertex).Nodup
  cases : ∀ node ∈ new,
    (i + 1 < K ∧ node = ⟨i + 1, label (i + 1)⟩) ∨ ∃ j < N, node = leafNode K i j
  room : rest.length + (N + 1) ≤ intMax →
    (i + 1 < K → (⟨i + 1, label (i + 1)⟩ : PqNode) ∈ st'.pq.data) ∧
      ∀ j < N, leafNode K i j ∈ st'.pq.data

theorem Hubs.turn {i : ℕ} {st : DijkstraState} {rest : List PqNode} (h : Hubs K N i st rest)
    (hg : IsHubGraph K N g) (hi : i < K) (hN : 0 < N) :
    ∃ st' new, HubTurn K N i g st st' rest new := by
  have hmem := hg.mem_vertices hN (show i < K + 2 * N by omega)
  have hself : st.dist i = label i := by
    rw [h.dist, hubDist_hub hi, if_pos le_rfl]
  have hnext : (⟨i, label i⟩ : PqNode) ∈ st.pq.data := h.queue.mem_iff.mpr List.mem_cons_self
  rcases h.sound.step_spec g with ⟨hnil, -⟩ | ⟨cur, pq, hperm, hmin, hsound, hcases⟩
  · exact absurd hnext (by rw [hnil]; exact List.not_mem_nil)
  -- the hub is nearer than all the leaves
  have hcur : cur = ⟨i, label i⟩ := by
    have hcur := h.queue.mem_iff.mp (hperm.mem_iff.mp List.mem_cons_self)
    refine (List.mem_cons.mp hcur).resolve_right fun hrest => ?_
    have hle := (h.others cur hrest).2.2.trans (hmin _ hnext)
    rw [label_le] at hle
    omega
  subst hcur
  have hrest : pq.data.Perm rest := (hperm.trans h.queue).cons_inv
  have hlength := hrest.length_eq
  have hstep := (hcases.resolve_left fun hstale =>
    absurd hstale.1 (by rw [hself]; exact lt_irrefl _)).2
  have hes : ∀ e ∈ g.outEdges i, ∀ z : ℚ, e.2 = z → hubWeights K N i e.1 = z := by
    intro e he z hz
    rw [hg.head_of_mem hmem he (by rw [hz]; exact WithTop.coe_ne_top), hz]
  have hout := hg.length_hub hi
  obtain ⟨hsound', new, hadded, hadds⟩ := hsound.foldl (hg.noLoop hmem) hes
  refine ⟨_, new, hstep, hsound', fun u => ?_, hadded.trans (hrest.append_left new),
    hadds.length_le.trans hout, hadds.nodup, fun node hnode => ?_, fun hroom => ?_⟩
  · rw [hg.foldl_dist hmem]
    dsimp only
    rw [hself, h.dist]
    exact hubDist_succ hi u
  · obtain ⟨e, he, hne, rfl⟩ := hadds.edge node hnode
    have hw := hg.head_of_mem hmem he hne
    rcases hubWeights_hub hi (hw ▸ hne) with ⟨hhead, hlt, hone⟩ | ⟨hge, hlt, hleaf⟩
    · left
      refine ⟨by omega, ?_⟩
      rw [← hw, hone, hself, label_add, hhead]
    · right
      refine ⟨e.1 - K, by omega, ?_⟩
      rw [← hw, hleaf, hself, label_add, leafNode, Nat.add_sub_cancel' hge,
        show i + 2 * (K - i) = 2 * K - i by omega]
  · have hput : ∀ u n : ℕ, hubWeights K N i u = label n → label (i + n) < hubDist K N i u →
        (⟨u, label (i + n)⟩ : PqNode) ∈ ((g.outEdges i).foldl (DijkstraState.relaxEdge i)
          { st with pq := pq }).pq.data := by
      intro u n hw hlt
      have hedge : (u, label n) ∈ g.outEdges i :=
        (mem_outEdges hg.wellFormed hmem n).mpr (by rw [hg.weights_eq, hw]; rfl)
      have hput := hsound.foldl_mem (hg.noLoop hmem) hes (by dsimp only; omega) (u, label n) hedge
      dsimp only at hput
      rw [hself, label_add, h.dist] at hput
      exact hput hlt
    refine ⟨fun hnext => hput (i + 1) 1 ?_ ?_, fun j hj => ?_⟩
    · rw [hubWeights, if_pos hi, if_pos hnext, if_pos rfl]
    · rw [hubDist_hub hnext, if_neg (by omega)]
      exact WithTop.coe_lt_top _
    · rw [leafNode, show 2 * K - i = i + 2 * (K - i) by omega]
      refine hput (K + j) (2 * (K - i)) ?_ ?_
      · rw [hubWeights, if_pos hi, if_neg (by omega), if_pos (by omega)]
      · rw [hubDist_leaf (by omega) (by omega)]
        split
        · exact WithTop.coe_lt_top _
        · exact label_lt.mpr (by omega)

/-- **While the nodes of all leaves fit**, the turn of a hub puts them all into the queue, and the
next hub is nearest again. -/
theorem Hubs.step {i : ℕ} {st : DijkstraState} {rest : List PqNode} (h : Hubs K N i st rest)
    (hg : IsHubGraph K N g) (hi : i + 1 < K) (hN : 0 < N) (hroom : (i + 1) * N + 1 ≤ intMax) :
    ∃ st' rest', st.step g = some st' ∧ Hubs K N (i + 1) st' rest' := by
  obtain ⟨st', new, hturn⟩ := h.turn hg (by omega) hN
  have hlength := h.length_le
  rw [Nat.succ_mul] at hroom
  obtain ⟨hnext, hleaves⟩ := hturn.room (by omega)
  have hvertices : ∀ node ∈ rest, node.vertex ≠ i + 1 := fun node hnode => by
    have := (h.others node hnode).1
    omega
  have hnext : (⟨i + 1, label (i + 1)⟩ : PqNode) ∈ new :=
    (List.mem_append.mp (hturn.queue.mem_iff.mp (hnext hi))).resolve_right fun hrest =>
      hvertices _ hrest rfl
  have hperm := List.perm_cons_erase hnext
  have hnodup : new.Nodup := hturn.nodup.of_map _
  refine ⟨st', new.erase ⟨i + 1, label (i + 1)⟩ ++ rest, hturn.step_eq, hturn.sound, hturn.dist,
    hturn.queue.trans (hperm.append_right rest), fun node hnode => ?_, fun k hk j hj => ?_, ?_⟩
  · rcases List.mem_append.mp hnode with hnew | hrest
    · obtain ⟨hne, hnew⟩ := (hnodup.mem_erase_iff).mp hnew
      obtain ⟨j, hj, rfl⟩ := (hturn.cases node hnew).resolve_left fun hcase => hne hcase.2
      exact ⟨Nat.le_add_right K j, Nat.add_lt_add_left hj K, label_le.mpr (by omega)⟩
    · obtain ⟨hge, hlt, hdist⟩ := h.others node hrest
      exact ⟨hge, hlt, (label_le.mpr (by omega)).trans hdist⟩
  · rcases Nat.lt_succ_iff_lt_or_eq.mp hk with hk | rfl
    · exact List.mem_append_right _ (h.leaves k hk j hj)
    · refine List.mem_append.mpr ((List.mem_append.mp (hturn.queue.mem_iff.mp
        (hleaves j hj))).imp_left fun hnew => hnodup.mem_erase_iff.mpr ⟨fun heq => ?_, hnew⟩)
      have hvertex : K + j = k + 1 := congrArg PqNode.vertex heq
      omega
  · have hlen := hperm.length_eq
    have hnew := hturn.length_le
    rw [List.length_cons] at hlen
    rw [List.length_append, Nat.succ_mul]
    omega

/-! ## The leaf without its node -/

/-- The node of leaf `j` with its least label is not in the queue, though its label is that small:
only nodes that are out of date will come out for this leaf. -/
structure Lost (K N j : ℕ) (st : DijkstraState) : Prop where
  sound : st.Sound
  leaf : st.dist (K + j) = label (K + 1)
  target : st.dist (K + N + j) = ⊤
  nodes : ∀ node ∈ st.pq.data, K ≤ node.vertex ∧ node.vertex < K + 2 * N ∧
    (node.vertex = K + j → label (K + 1) < node.dist)

/-- There is no room for the nodes of all leaves, by counting: they are different from one another.
-/
theorem exists_leafNode_not_mem {data : List PqNode} (hlength : data.length ≤ intMax)
    (hmany : intMax < K * N) : ∃ k < K, ∃ j < N, leafNode K k j ∉ data := by
  by_contra hall
  push Not at hall
  have hinj : Set.InjOn (fun p : ℕ × ℕ => leafNode K p.1 p.2)
      ↑(Finset.range K ×ˢ Finset.range N) := by
    rintro ⟨k, j⟩ hp ⟨k', j'⟩ hp' heq
    rw [Finset.coe_product, Set.mem_prod, Finset.mem_coe, Finset.mem_coe,
      Finset.mem_range] at hp hp'
    obtain ⟨rfl, rfl⟩ := leafNode_inj hp.1 hp'.1 heq
    rfl
  have hsub : (Finset.range K ×ˢ Finset.range N).image (fun p => leafNode K p.1 p.2) ⊆
      data.toFinset := by
    intro node hnode
    obtain ⟨⟨k, j⟩, hp, rfl⟩ := Finset.mem_image.mp hnode
    obtain ⟨hk, hj⟩ := Finset.mem_product.mp hp
    exact List.mem_toFinset.mpr (hall k (Finset.mem_range.mp hk) j (Finset.mem_range.mp hj))
  have hcard := Finset.card_le_card hsub
  rw [Finset.card_image_of_injOn hinj, Finset.card_product, Finset.card_range,
    Finset.card_range] at hcard
  have hdata := List.toFinset_card_le data
  omega

/-- **The turn of the last hub** leaves a leaf without its node. -/
theorem Hubs.last {i : ℕ} {st : DijkstraState} {rest : List PqNode} (h : Hubs K N i st rest)
    (hg : IsHubGraph K N g) (hi : i + 1 = K) (hN : 0 < N) (hmany : intMax < K * N) :
    ∃ st' j, j < N ∧ st.step g = some st' ∧ Lost K N j st' := by
  obtain ⟨st', new, hturn⟩ := h.turn hg (by omega) hN
  obtain ⟨k, hk, j, hj, hmissing⟩ :=
    exists_leafNode_not_mem (st'.pq.size_le.trans st'.pq.capacity_le) hmany
  rw [hturn.queue.mem_iff, List.mem_append, not_or] at hmissing
  -- the hubs before the last one had room
  have hlast : k = i := by
    by_contra hne
    exact hmissing.2 (h.leaves k (by omega) j hj)
  subst hlast
  refine ⟨st', j, hj, hturn.step_eq, hturn.sound, ?_, ?_, fun node hnode => ?_⟩
  · rw [hturn.dist, hubDist_leaf (by omega) (by omega), if_neg (Nat.succ_ne_zero k),
      show 2 * K + 1 - (k + 1) = K + 1 by omega]
  · rw [hturn.dist, hubDist_target (by omega)]
  · rcases List.mem_append.mp (hturn.queue.mem_iff.mp hnode) with hnew | hrest
    · obtain ⟨j', hj', rfl⟩ := (hturn.cases node hnew).resolve_left fun hcase => by omega
      refine ⟨Nat.le_add_right K j', ?_, fun hvertex => ?_⟩
      · show K + j' < K + 2 * N
        omega
      · obtain rfl : j' = j := Nat.add_left_cancel hvertex
        exact absurd hnew hmissing.1
    · obtain ⟨hge, hlt, hdist⟩ := h.others node hrest
      exact ⟨hge, by omega, fun _ => (label_lt.mpr (by omega)).trans_le hdist⟩

/-- What the nodes of the queue still cost: a leaf may put the node of its target there. After the
hubs no other nodes are put, so this goes down with every turn, and the loop ends. -/
def cost (K N : ℕ) (nodes : List PqNode) : ℕ :=
  (nodes.map fun node => if node.vertex < K + N then 2 else 1).sum

theorem cost_perm {nodes nodes' : List PqNode} (h : nodes.Perm nodes') :
    cost K N nodes = cost K N nodes' := (h.map _).sum_eq

theorem cost_cons (node : PqNode) (nodes : List PqNode) :
    cost K N (node :: nodes) = (if node.vertex < K + N then 2 else 1) + cost K N nodes :=
  List.sum_cons

theorem cost_append (nodes nodes' : List PqNode) :
    cost K N (nodes ++ nodes') = cost K N nodes + cost K N nodes' := by
  rw [cost, List.map_append, List.sum_append]
  rfl

/-- A turn gives the target no label, and the queue is nearer to its end. A node for the leaf that
does come out is out of date, so the edge to the target is not looked at. -/
theorem Lost.step {j : ℕ} {st st' : DijkstraState} (h : Lost K N j st) (hg : IsHubGraph K N g)
    (hj : j < N) (hstep : st.step g = some st') :
    Lost K N j st' ∧ cost K N st'.pq.data < cost K N st.pq.data := by
  rcases h.sound.step_spec g with ⟨-, hnone⟩ | ⟨cur, pq, hperm, -, hsound, hcases⟩
  · rw [hnone] at hstep
    exact absurd hstep (by simp)
  have hcost := cost_perm (K := K) (N := N) hperm
  rw [cost_cons] at hcost
  have hrest : ∀ node ∈ pq.data, node ∈ st.pq.data := fun node hnode =>
    hperm.mem_iff.mp (List.mem_cons_of_mem _ hnode)
  obtain ⟨hge, hlt, hlabel⟩ := h.nodes cur (hperm.mem_iff.mp List.mem_cons_self)
  rcases hcases with ⟨-, hsome⟩ | ⟨hfresh, hsome⟩
  · obtain rfl := Option.some.inj (hsome.symm.trans hstep)
    refine ⟨⟨hsound, h.leaf, h.target, fun node hnode => h.nodes node (hrest node hnode)⟩, ?_⟩
    dsimp only
    split at hcost <;> omega
  · obtain rfl := Option.some.inj (hsome.symm.trans hstep)
    -- a node that is up to date is not the one of the leaf
    have hother : cur.vertex ≠ K + j := fun heq => by
      rw [heq, h.leaf] at hfresh
      exact absurd (hlabel heq) (not_lt.mpr hfresh)
    have hmem := hg.mem_vertices (by omega) hlt
    have hes : ∀ e ∈ g.outEdges cur.vertex, ∀ z : ℚ, e.2 = z →
        hubWeights K N cur.vertex e.1 = z := by
      intro e he z hz
      rw [hg.head_of_mem hmem he (by rw [hz]; exact WithTop.coe_ne_top), hz]
    obtain ⟨hsound', new, hadded, hadds⟩ := hsound.foldl (hg.noLoop hmem) hes
    have htargets : ∀ node ∈ new, cur.vertex < K + N ∧ node.vertex = cur.vertex + N := by
      intro node hnode
      obtain ⟨e, he, hne, rfl⟩ := hadds.edge node hnode
      have hw := hg.head_of_mem hmem he hne
      rw [hubWeights_leaf hge] at hw
      split at hw
      · assumption
      · exact absurd hw.symm hne
    have hnone : ∀ u, u ≠ cur.vertex + N → hubWeights K N cur.vertex u = ⊤ := fun u hne => by
      rw [hubWeights_leaf hge, if_neg fun hcase => hne hcase.2]
    refine ⟨⟨hsound', ?_, ?_, fun node hnode => ?_⟩, ?_⟩
    · rw [hg.foldl_dist hmem, hnone _ (by omega), WithTop.add_top, min_eq_left le_top]
      exact h.leaf
    · rw [hg.foldl_dist hmem, hnone _ (by omega), WithTop.add_top, min_eq_left le_top]
      exact h.target
    · rcases List.mem_append.mp (hadded.mem_iff.mp hnode) with hnew | hold
      · obtain ⟨hleaf, hvertex⟩ := htargets node hnew
        exact ⟨by omega, by omega, fun heq => by omega⟩
      · exact h.nodes node (hrest node hold)
    · have hlen := hadds.length_le.trans (hg.length_leaf hge)
      rw [cost_perm hadded, cost_append]
      dsimp only
      have hnew : cost K N new ≤ new.length := by
        rw [cost]
        refine (List.sum_le_card_nsmul _ 1 fun n hn => ?_).trans_eq (by simp)
        obtain ⟨node, hnode, rfl⟩ := List.mem_map.mp hn
        obtain ⟨hleaf, hvertex⟩ := htargets node hnode
        rw [if_neg (by omega)]
      split at hcost <;> split at hlen <;> omega

/-- The loop ends without a label for the target. -/
theorem Lost.loop {j : ℕ} (hg : IsHubGraph K N g) (hj : j < N) : ∀ (bound : ℕ) {st : DijkstraState},
    Lost K N j st → cost K N st.pq.data < bound →
      ∃ fin : DijkstraState, fin.dist (K + N + j) = ⊤ ∧
        ∀ fuel ≥ bound, st.loop g fuel = some fin := by
  intro bound
  induction bound with
  | zero => exact fun _ hlt => absurd hlt (Nat.not_lt_zero _)
  | succ bound ih =>
    intro st h hlt
    cases hstep : st.step g with
    | none =>
      refine ⟨st, h.target, fun fuel hfuel => ?_⟩
      obtain ⟨fuel, rfl⟩ := Nat.exists_eq_succ_of_ne_zero (by omega : fuel ≠ 0)
      rw [DijkstraState.loop, hstep]
    | some st' =>
      obtain ⟨hlost, hless⟩ := h.step hg hj hstep
      obtain ⟨fin, hfin, hends⟩ := ih hlost (by omega)
      refine ⟨fin, hfin, fun fuel hfuel => ?_⟩
      obtain ⟨fuel, rfl⟩ := Nat.exists_eq_succ_of_ne_zero (by omega : fuel ≠ 0)
      rw [DijkstraState.loop, hstep]
      exact hends fuel (by omega)

/-- From the turn of any hub on, the loop ends without a label for some target. -/
theorem Hubs.loop (hg : IsHubGraph K N g) (hN : 0 < N) (hroom : (K - 1) * N + 1 ≤ intMax)
    (hmany : intMax < K * N) : ∀ (left : ℕ) {i : ℕ} {st : DijkstraState} {rest : List PqNode},
    Hubs K N i st rest → i + 1 + left = K →
      ∃ j < N, ∃ (fin : DijkstraState) (bound : ℕ), fin.dist (K + N + j) = ⊤ ∧
        ∀ fuel ≥ bound, st.loop g fuel = some fin := by
  intro left
  have hturn : ∀ {st st' fin : DijkstraState} {bound : ℕ}, st.step g = some st' →
      (∀ fuel ≥ bound, st'.loop g fuel = some fin) →
      ∀ fuel ≥ bound + 1, st.loop g fuel = some fin := by
    intro st st' fin bound hstep hends fuel hfuel
    obtain ⟨fuel, rfl⟩ := Nat.exists_eq_succ_of_ne_zero (by omega : fuel ≠ 0)
    rw [DijkstraState.loop, hstep]
    exact hends fuel (by omega)
  induction left with
  | zero =>
    intro i st rest h hi
    obtain ⟨st', j, hj, hstep, hlost⟩ := h.last hg hi hN hmany
    obtain ⟨fin, hfin, hends⟩ := hlost.loop hg hj _ (Nat.lt_succ_self _)
    exact ⟨j, hj, fin, _, hfin, hturn hstep hends⟩
  | succ left ih =>
    intro i st rest h hi
    have hfits : (i + 1) * N ≤ (K - 1) * N := Nat.mul_le_mul_right N (by omega)
    obtain ⟨st', rest', hstep, hnext⟩ := h.step hg (by omega) hN (by omega)
    obtain ⟨j, hj, fin, bound, hfin, hends⟩ := ih hnext (by omega)
    exact ⟨j, hj, fin, bound + 1, hfin, hturn hstep hends⟩

/-- The state in which the loop is entered from hub 0. -/
theorem Hubs.init (hK : 0 < K) {st : DijkstraState} (hsound : st.Sound)
    (hdist : st.dist = initialDist 0) (hdata : st.pq.data = [⟨0, 0⟩]) : Hubs K N 0 st [] := by
  have hzero : label 0 = 0 := rfl
  refine ⟨hsound, fun u => ?_, by rw [hdata, hzero], by simp, by simp, Nat.zero_le _⟩
  rw [hdist, initialDist]
  by_cases hu : u = 0
  · rw [hu, Function.update_self, hubDist_hub hK, if_pos le_rfl, hzero]
  · rw [Function.update_of_ne hu, hubDist]
    split_ifs <;> first | rfl | omega

theorem hubWeights_nonneg (u v : ℕ) : 0 ≤ hubWeights K N u v := by
  have hlabel : ∀ n, 0 ≤ label n := fun n => WithTop.coe_le_coe.mpr n.cast_nonneg
  rw [hubWeights]
  split_ifs <;> first | exact hlabel _ | exact le_top

/-- Every target is reached over its leaf. -/
theorem reaches_target {j : ℕ} (hK : 0 < K) (hj : j < N) :
    Reaches (hubWeights K N) 0 (K + N + j) := by
  have hleaf : hubWeights K N 0 (K + j) = label (2 * K) := by
    rw [hubWeights, if_pos hK, if_neg (by omega), if_pos (by omega), Nat.sub_zero]
  have htarget : hubWeights K N (K + j) (K + N + j) = label 1 := by
    rw [hubWeights_leaf (by omega), if_pos ⟨by omega, by omega⟩]
  exact ⟨2, _, (Walk.nil.snoc hleaf).snoc htarget⟩

/-- With more nodes for the leaves than the queue takes, a call returns 1 and stores infinity for a
vertex that is in reach. The first bound says that all turns but the last have room. -/
theorem dijkstra_loses_target (hK : 0 < K) (hN : 0 < N) (hids : K + 2 * N ≤ 2 ^ 30)
    (hroom : (K - 1) * N + 1 ≤ intMax) (hmany : intMax < K * N) (junk : ℤ → WithTop ℚ) :
    ∃ g, build junk .directed .adjacencyList .bfs .dijkstra Allocator.always
        (edgeCalls (hubWeights K N) (K + 2 * N)) = some (g, Allocator.always) ∧
      g.hasVertex 0 = true ∧ ¬ NegativeCycle g.weights 0 ∧
      ∃ d v, Reaches g.weights 0 v ∧ d v = ⊤ ∧ ∃ bound, ∀ fuel ≥ bound,
        g.dijkstra fuel 0 Allocator.always = some ⟨1, some ⟨g.vertexCapacity, d⟩⟩ := by
  obtain ⟨g, hbuild, hweights, hlength⟩ :=
    exists_built_of_weights junk .dijkstra hids fun u v => hubWeights_lt (K := K) (N := N)
  have hbuilt : Built g := ⟨_, _, _, _, _, _, _, _, hbuild⟩
  have hg : IsHubGraph K N g := ⟨hbuilt.wellFormed, hweights, hlength⟩
  have hsame : g.weights = hubWeights K N := funext fun u => funext fun v => hweights u v
  have hmem : 0 ∈ g.vertices := hg.mem_vertices hN (by omega)
  have hstart : g.hasVertex ((0 : ℕ) : ℤ) = true :=
    GraphImpl.hasVertex_cast.mpr (GraphImpl.mem_vertices.mp hmem)
  obtain ⟨st, hinit, hinv, hdist, hdata⟩ := DijkstraState.init_always hbuilt.wellFormed hmem
  have hordered : HeapOrdered pqNodeCmp st.pq.data := by
    intro i hi x p hx
    rw [hdata, List.getElem?_singleton, if_neg hi.ne'] at hx
    exact absurd hx (by simp)
  have hsound : st.Sound := ⟨hinv.allocator, hinv.capacity_pos, hordered⟩
  obtain ⟨j, hj, fin, bound, hfin, hends⟩ :=
    (Hubs.init hK hsound hdist hdata).loop hg hN hroom hmany (K - 1) (by omega)
  refine ⟨g, hbuild, hstart, ?_, fin.dist, K + N + j, ?_, hfin, bound, fun fuel hfuel => ?_⟩
  · rw [hsame]
    exact not_negativeCycle_of_nonneg hubWeights_nonneg
  · rw [hsame]
    exact reaches_target hK hj
  · have hresult := dijkstra_eq hstart hinit fuel
    rw [hends fuel hfuel] at hresult
    exact hresult

/-- `2 ^ 15` hubs and `2 ^ 16` leaves, on fewer than `2 ^ 18` vertices: one node more than the queue
takes. -/
theorem dijkstra_fullQueue :
    ∃ g, build (fun _ => 0) .directed .adjacencyList .bfs .dijkstra Allocator.always
        (edgeCalls (hubWeights (2 ^ 15) (2 ^ 16)) (2 ^ 15 + 2 * 2 ^ 16)) =
          some (g, Allocator.always) ∧
      g.hasVertex 0 = true ∧ ¬ NegativeCycle g.weights 0 ∧
      ∃ d v, Reaches g.weights 0 v ∧ d v = ⊤ ∧ ∃ bound, ∀ fuel ≥ bound,
        g.dijkstra fuel 0 Allocator.always = some ⟨1, some ⟨g.vertexCapacity, d⟩⟩ :=
  dijkstra_loses_target (by norm_num) (by norm_num) (by norm_num) (by norm_num [intMax])
    (by norm_num [intMax]) _

end Graph

end OvaLib
