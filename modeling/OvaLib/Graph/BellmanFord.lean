import OvaLib.Graph.ShortestPaths

/-!
# The Bellman–Ford algorithm

A pass relaxes every edge once, whatever the order and whatever it skips, so after as many passes
as a path can have edges the labels are the distances unless there is a negative cycle. The check
at the end is exact either way.

## How the proof goes

A pass of the code is a fold over the vertices of a fold over their edges. It is first brought to
the form of the general theory, one list of edges that are relaxed one after the other; a vertex
without a label is skipped by the code, and relaxing its edges would change nothing. From there on
nothing is said about this graph or its storage.

After `k` passes every label is the weight of some walk from the start, and at most the weight of
each walk of `k` edges. There are as many passes as vertices less one, and a pass without a change
ends them early: then no edge improves a label, which is more than the missing passes would give. So
two things can be true at the end. Either the labels have every walk without repetition taken into
account, or no edge improves one.

The check asks for an edge that still improves a label. If there is none, the labels are the
distances and no negative cycle is in reach; if there is one, walks get ever lighter.

## Scope

All graphs that calls can build, with loops, negative edges and unreachable parts. Only the vector
is allocated, at the beginning; the theorem is for a call that has it.

## Main results

* `bellmanFordPass_eq` — a pass relaxes the edges of the graph
* `bellmanFord_correct` — status 0 for a negative cycle in reach, and the distances otherwise
-/

namespace OvaLib

namespace Graph

open Foundation

namespace GraphImpl

variable {g : GraphImpl}

/-! ## A pass

The order of a pass is the order of the ids, and of the edges of each vertex as they are stored.
Nothing below depends on it. -/

/-- The edges out of one vertex, as a pass takes them. -/
def edgesFrom (g : GraphImpl) (u : ℕ) : List (ℕ × ℕ × WithTop ℚ) :=
  if g.isValidVertex u then (g.outEdges u).map fun e => (u, e) else []

/-- The edges of a graph in the order of a pass. -/
def allEdges (g : GraphImpl) : List (ℕ × ℕ × WithTop ℚ) :=
  (List.range g.vertexCapacity).flatMap g.edgesFrom

theorem bellmanFordRelax_fst (v : ℕ) (st : (ℕ → WithTop ℚ) × Bool) (e : ℕ × WithTop ℚ) :
    (bellmanFordRelax v st e).1 = relax st.1 v e.1 e.2 := by
  unfold bellmanFordRelax relax
  dsimp only
  split <;> rfl

theorem foldl_bellmanFordRelax_fst (v : ℕ) (es : List (ℕ × WithTop ℚ)) :
    ∀ st, (es.foldl (bellmanFordRelax v) st).1 = relaxAll st.1 (es.map fun e => (v, e)) := by
  induction es with
  | nil => exact fun st => rfl
  | cons e es ih =>
    intro st
    rw [List.foldl_cons, ih, bellmanFordRelax_fst]
    rfl

/-- A vertex without a label has no edge that improves one. -/
theorem relaxAll_of_eq_top (u : ℕ) (es : List (ℕ × WithTop ℚ)) (d : ℕ → WithTop ℚ)
    (hu : d u = ⊤) : relaxAll d (es.map fun e => (u, e)) = d := by
  induction es with
  | nil => rfl
  | cons e es ih =>
    have hnot : ¬ d u + e.2 < d e.1 := by
      rw [hu, WithTop.top_add]
      exact not_top_lt
    rw [List.map_cons, relaxAll, List.foldl_cons]
    rw [relax_of_not_lt hnot]
    exact ih

theorem bellmanFordScan_fst (st : (ℕ → WithTop ℚ) × Bool) (u : ℕ) :
    (g.bellmanFordScan st u).1 = relaxAll st.1 (g.edgesFrom u) := by
  rw [bellmanFordScan, edgesFrom]
  by_cases hvalid : g.isValidVertex u = true
  · by_cases htop : st.1 u = ⊤
    · rw [if_pos (Or.inr htop), if_pos hvalid, relaxAll_of_eq_top u _ _ htop]
    · rw [if_neg (by simp [hvalid, htop]), if_pos hvalid, foldl_bellmanFordRelax_fst]
  · rw [if_pos (Or.inl (by simpa using hvalid)), if_neg hvalid]
    rfl

/-- A pass relaxes the edges of the graph. -/
theorem bellmanFordPass_eq (d : ℕ → WithTop ℚ) :
    (g.bellmanFordPass d).1 = relaxAll d g.allEdges := by
  have hscan : ∀ (us : List ℕ) (st : (ℕ → WithTop ℚ) × Bool),
      (us.foldl g.bellmanFordScan st).1 = relaxAll st.1 (us.flatMap g.edgesFrom) := by
    intro us
    induction us with
    | nil => exact fun st => rfl
    | cons u us ih =>
      intro st
      rw [List.foldl_cons, ih, bellmanFordScan_fst, List.flatMap_cons]
      simp only [relaxAll]
      rw [List.foldl_append]
  exact hscan _ _

/-- A loop whose every step either leaves the state alone or raises the flag for good. -/
theorem foldl_eq_self {α β : Type*} {f : α × Bool → β → α × Bool}
    (hf : ∀ st b, (f st b).2 = false → f st b = st) :
    ∀ (l : List β) (st : α × Bool), (l.foldl f st).2 = false → l.foldl f st = st := by
  intro l
  induction l with
  | nil => exact fun st _ => rfl
  | cons b l ih =>
    intro st h
    have htail := ih (f st b) h
    rw [List.foldl_cons, htail] at h ⊢
    exact hf st b h

/-- A pass that reports no change made none. -/
theorem bellmanFordPass_unchanged {d : ℕ → WithTop ℚ} (h : (g.bellmanFordPass d).2 = false) :
    (g.bellmanFordPass d).1 = d := by
  have hrelax : ∀ (v : ℕ) st e, (bellmanFordRelax v st e).2 = false →
      bellmanFordRelax v st e = st := by
    intro v st e hflag
    unfold bellmanFordRelax at hflag ⊢
    dsimp only at hflag ⊢
    split at hflag
    · exact absurd hflag (by simp)
    · next hnot => rw [if_neg hnot]
  have hscan : ∀ st u, (g.bellmanFordScan st u).2 = false → g.bellmanFordScan st u = st := by
    intro st u hflag
    rw [bellmanFordScan] at hflag ⊢
    split at hflag
    · next hskip => rw [if_pos hskip]
    · next hrun =>
      rw [if_neg hrun]
      exact foldl_eq_self (hrelax u) _ _ hflag
  exact congrArg Prod.fst (foldl_eq_self hscan _ _ h)

/-! ## The edges of a pass

An edge of a pass is an edge that a caller sees, between vertices. -/

theorem mem_allEdges (h : WellFormed g) {u v : ℕ} (c : ℚ) :
    (u, v, (c : WithTop ℚ)) ∈ g.allEdges ↔ g.weights u v = c := by
  unfold allEdges edgesFrom
  rw [List.mem_flatMap]
  constructor
  · rintro ⟨u', -, hmem⟩
    split at hmem
    · next hvalid =>
      obtain ⟨e, he, heq⟩ := List.mem_map.mp hmem
      obtain ⟨rfl, rfl⟩ := Prod.mk.inj heq
      exact (mem_outEdges h (isValidVertex_cast.mp hvalid) c).mp he
    · exact absurd hmem List.not_mem_nil
  · intro hw
    obtain ⟨hu, -⟩ := mem_of_weights_ne_top (g := g) (u := u) (v := v) (by
      rw [hw]
      exact WithTop.coe_ne_top)
    refine ⟨u, List.mem_range.mpr (mem_vertices.mp hu).1, ?_⟩
    rw [if_pos (isValidVertex_cast.mpr hu)]
    exact List.mem_map.mpr ⟨(v, c), (mem_outEdges h hu c).mpr hw, rfl⟩

/-! ## The passes

By induction on the passes that are left, with the number of those made so far as the bound on the
edges of a walk. -/

variable {s : ℕ}

/-- After the passes the labels are still weights of walks, and either a pass changed nothing or
the walks of as many edges are all taken into account. -/
theorem bellmanFordPasses_spec (h : WellFormed g) : ∀ (n : ℕ) {k : ℕ} {d : ℕ → WithTop ℚ},
    Labels g.weights s d → AtMostWalks g.weights s k d →
      Labels g.weights s (g.bellmanFordPasses n d) ∧
        ((∀ u, Relaxed g.weights (g.bellmanFordPasses n d) u) ∨
          AtMostWalks g.weights s (k + n) (g.bellmanFordPasses n d)) := by
  intro n
  induction n with
  | zero => exact fun hlabels hwalks => ⟨hlabels, Or.inr hwalks⟩
  | succ n ih =>
    intro k d hlabels hwalks
    have hpass := g.bellmanFordPass_eq d
    have hlabels' : Labels g.weights s (g.bellmanFordPass d).1 := by
      rw [hpass]
      exact hlabels.relaxAll fun u t z => (mem_allEdges h z).mp
    have hwalks' : AtMostWalks g.weights s (k + 1) (g.bellmanFordPass d).1 := by
      rw [hpass]
      exact hwalks.relaxAll fun u t z => (mem_allEdges h z).mpr
    rw [bellmanFordPasses]
    dsimp only
    by_cases hflag : (g.bellmanFordPass d).2 = true
    · rw [if_neg (by simp [hflag])]
      rw [show k + (n + 1) = k + 1 + n by omega]
      exact ih hlabels' hwalks'
    · rw [if_pos (by simpa using hflag)]
      refine ⟨hlabels', Or.inl fun u t c hc => ?_⟩
      have hsame := bellmanFordPass_unchanged (by simpa using hflag)
      have hle := relaxAll_head_le d ((mem_allEdges h c).mpr hc)
      rw [← hpass] at hle
      rwa [hsame] at hle ⊢

theorem initialDist_atMostWalks (w : ℕ → ℕ → WithTop ℚ) (s : ℕ) :
    AtMostWalks w s 0 (initialDist s) := by
  intro n hn v x hwalk
  obtain rfl := Nat.le_zero.mp hn
  cases hwalk
  rw [initialDist, Function.update_self]
  rfl

/-! ## The check

The check reads the labels and writes nothing, so it says of the final labels whether an edge
improves one. -/

/-- The check finds an edge that improves a label exactly when there is one. -/
theorem bellmanFordImproves_iff (h : WellFormed g) (d : ℕ → WithTop ℚ) :
    g.bellmanFordImproves d = true ↔
      ∃ u v c, g.weights u v = ((c : ℚ) : WithTop ℚ) ∧ d u + c < d v := by
  rw [bellmanFordImproves]
  simp only [List.any_eq_true, List.mem_range, decide_eq_true_eq]
  constructor
  · rintro ⟨u, -, hvalid, -, ⟨v, c⟩, he, hlt⟩
    obtain ⟨x, hx⟩ := WithTop.ne_top_iff_exists.mp (ne_top_of_lt hlt)
    obtain ⟨y, z, -, rfl, -⟩ := exists_of_add_eq hx.symm
    exact ⟨u, v, z, (mem_outEdges h (isValidVertex_cast.mp hvalid) z).mp he, hlt⟩
  · rintro ⟨u, v, c, hw, hlt⟩
    obtain ⟨hu, -⟩ := mem_of_weights_ne_top (g := g) (u := u) (v := v) (by
      rw [hw]
      exact WithTop.coe_ne_top)
    have hne : d u ≠ ⊤ := by
      intro htop
      rw [htop, WithTop.top_add] at hlt
      exact not_top_lt hlt
    exact ⟨u, (mem_vertices.mp hu).1, isValidVertex_cast.mpr hu, hne, (v, c),
      (mem_outEdges h hu c).mpr hw, hlt⟩

end GraphImpl

open GraphImpl

/-- The two ways a call ends. -/
theorem bellmanFord_cases {g : GraphImpl} (hg : Built g) {start : ℤ}
    (hstart : g.hasVertex start = true) :
    (NegativeCycle g.weights start.toNat ∧ g.bellmanFord start Allocator.always = ⟨0, none⟩) ∨
    (¬ NegativeCycle g.weights start.toNat ∧ ∃ d, IsDistance g.weights start.toNat d ∧
      g.bellmanFord start Allocator.always = ⟨1, some ⟨g.vertexCapacity, d⟩⟩) := by
  have hwf := hg.wellFormed
  have hvalid : g.isValidVertex start = true := (isValidVertex_eq start).trans hstart
  have hmem : start.toNat ∈ g.vertices := by
    rw [GraphImpl.isValidVertex] at hvalid
    obtain ⟨hlow, hhigh, hpresent⟩ := of_decide_eq_true hvalid
    exact mem_vertices.mpr ⟨by omega, hpresent⟩
  obtain ⟨hlabels, hpasses⟩ := bellmanFordPasses_spec hwf (g.vertexCount - 1)
    (initialDist_labels g.weights start.toNat) (initialDist_atMostWalks g.weights start.toNat)
  set d := g.bellmanFordPasses (g.vertexCount - 1) (initialDist start.toNat) with hd
  have hresult : g.bellmanFord start Allocator.always =
      if g.bellmanFordImproves d then ⟨0, none⟩ else ⟨1, some ⟨g.vertexCapacity, d⟩⟩ := by
    rw [GraphImpl.bellmanFord]
    rw [hvalid]
    rfl
  have hfound : g.bellmanFordImproves d = true ↔ NegativeCycle g.weights start.toNat := by
    constructor
    · intro himproves
      by_contra hcycle
      have hle : ∀ {n v x}, Walk g.weights start.toNat n v x → d v ≤ x := by
        intro n v x hwalk
        rcases hpasses with hrelaxed | hwalks
        · exact (hlabels.isDistance hrelaxed v).1 n x hwalk
        · refine hwalks.le g.vertices hcycle
            (fun u v hne => (mem_of_weights_ne_top hne).2) hmem ?_ hwalk
          have hcount := hwf.count
          omega
      obtain ⟨u, v, c, hw, hlt⟩ := (bellmanFordImproves_iff hwf d).mp himproves
      obtain ⟨x, hx⟩ := WithTop.ne_top_iff_exists.mp (ne_top_of_lt hlt)
      obtain ⟨y, z, hy, hz, rfl⟩ := exists_of_add_eq hx.symm
      obtain rfl : c = z := WithTop.coe_injective hz
      obtain ⟨n, hwalk⟩ := hlabels.walk u y hy
      have hshort := hle (hwalk.snoc hw)
      rw [hx] at hshort
      exact absurd hshort (not_le.mpr hlt)
    · intro hcycle
      by_contra hnot
      refine hlabels.not_negativeCycle (fun u v c hw => ?_) hcycle
      by_contra hlt
      exact hnot ((bellmanFordImproves_iff hwf d).mpr ⟨u, v, c, hw, not_le.mp hlt⟩)
  rw [hresult]
  by_cases hcycle : NegativeCycle g.weights start.toNat
  · exact Or.inl ⟨hcycle, if_pos (hfound.mpr hcycle)⟩
  · have hnot := mt hfound.mp hcycle
    refine Or.inr ⟨hcycle, d, hlabels.isDistance fun u v c hw => ?_, if_neg hnot⟩
    by_contra hlt
    exact hnot ((bellmanFordImproves_iff hwf d).mpr ⟨u, v, c, hw, not_le.mp hlt⟩)

/-- **The Bellman–Ford algorithm is right.** From a vertex of any graph that calls can build, it
returns 0 and stores nothing exactly when a negative cycle is in reach; otherwise it returns 1 and
the least weights of walks, with infinity where there is no walk. -/
theorem bellmanFord_correct (g : GraphImpl) (hg : Built g) (start : ℤ)
    (hstart : g.hasVertex start = true) :
    (g.bellmanFord start Allocator.always = ⟨0, none⟩ ↔
      NegativeCycle g.weights start.toNat) ∧
    (¬ NegativeCycle g.weights start.toNat → ∃ d,
      g.bellmanFord start Allocator.always = ⟨1, some ⟨g.vertexCapacity, d⟩⟩ ∧
        IsDistance g.weights start.toNat d) := by
  rcases bellmanFord_cases hg hstart with ⟨hcycle, hresult⟩ | ⟨hcycle, d, hd, hresult⟩
  · exact ⟨⟨fun _ => hcycle, fun _ => hresult⟩, fun hnot => absurd hcycle hnot⟩
  · refine ⟨⟨fun hfailed => ?_, fun h => absurd h hcycle⟩, fun _ => ⟨d, hresult, hd⟩⟩
    rw [hresult] at hfailed
    exact absurd (congrArg PathResult.outDist hfailed) (by simp)

/-- A loop of negative weight is found. -/
theorem bellmanFord_correct_loop :
    ∃ g, build (fun _ => 0) .directed .adjacencyList .bfs .bellmanFord Allocator.always
        [.addEdge 3 3 ((-1 : ℚ) : WithTop ℚ)] = some (g, Allocator.always) ∧
      g.bellmanFord 3 Allocator.always = ⟨0, none⟩ := by
  obtain ⟨g, hg, hstart, hweights, -⟩ :=
    exists_singleEdge (fun _ => 0) .bellmanFord (x := 3) (y := 3) (by norm_num) (by norm_num) (-1)
  refine ⟨g, hg, (bellmanFord_correct g ⟨_, _, _, _, _, _, _, _, hg⟩ 3 hstart).1.mpr ?_⟩
  refine ⟨3, Reaches.refl _ _, 1, 0 + -1, Walk.nil.snoc ?_, by norm_num⟩
  rw [hweights, if_pos ⟨rfl, rfl⟩]

end Graph

end OvaLib
