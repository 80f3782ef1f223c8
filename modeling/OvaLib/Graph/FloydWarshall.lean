import OvaLib.Foundation.AllPairs
import OvaLib.Graph.BellmanFord
import OvaLib.Matrix.Matrix

/-! # The Floyd–Warshall algorithm

`graph_floyd_warshall_impl`. The result is a matrix of the size of the capacity, of which only the
rows and the columns of vertices are ever taken up; `valid` lists those. Arithmetic is exact.

## How the proof goes

The invariant is that of the textbook: after the turns for the vertices in `taken`, entry `(i, j)`
is the least weight of a walk from `i` to `j` whose inner vertices are all in `taken`. One turn
takes one more vertex, and the general theory says what its table has to be.

The turn is made in place. Row `k` and column `k` are read while entries are written, so the value
that is read may already be one of this turn. It is not a different one: without negative cycles the
entry `(k, k)` is zero and stays zero, and then a turn through `k` changes nothing in row `k` or in
column `k`. `throughVertex_apply` makes this precise, and nothing after it knows that the turn was
made in place.

Row `i` is skipped when its entry in column `k` is infinite; then no walk goes from `i` through `k`,
and no minimum of the row would change.

## Scope

No negative cycle anywhere in the graph, which is what the algorithm assumes. Entries of ids that
are no vertices stay infinite off the diagonal and are never read.

## Main results

* `throughVertex_apply` — a turn of the outer loop, although it reads the cells it writes
* `floydWarshall_correct` — the entries are the distances that the Bellman–Ford algorithm finds
-/

namespace OvaLib

namespace Graph

open Foundation
open OvaLib.Matrix (Block MatrixImpl allocAll allocAll_always fill_apply set_self set_of_ne)

namespace GraphImpl

/-! ## The model -/

/-- `create_matrix`, for distances. -/
def createDistMatrix (rows cols : ℕ) (a : Allocator) :
    Option (MatrixImpl (WithTop ℚ)) × Allocator :=
  if rows = 0 ∨ cols = 0 then (none, a)
  else
    let (ok, a) := allocAll 4 a
    (if ok then some ⟨fun _ _ => 0, rows, cols⟩ else none, a)

/-- The loops that set every entry to `GRAPH_NO_EDGE`. -/
def noEdges (n : ℕ) (data : Block (WithTop ℚ)) : Block (WithTop ℚ) :=
  loop n (fun i => loop n fun j data => data.set i j ⊤) data

/-- The loop over the diagonal. -/
def zeroDiagonal (g : GraphImpl) (data : Block (WithTop ℚ)) : Block (WithTop ℚ) :=
  loop g.vertexCapacity (fun v data => if g.isValidVertex v then data.set v v 0 else data) data

/-- One edge. -/
def enterEdge (fromVertex : ℕ) (data : Block (WithTop ℚ)) (e : ℕ × WithTop ℚ) :
    Block (WithTop ℚ) :=
  if e.2 < data fromVertex e.1 then data.set fromVertex e.1 e.2 else data

/-- The loop over the edges. -/
def enterEdges (g : GraphImpl) (data : Block (WithTop ℚ)) : Block (WithTop ℚ) :=
  loop g.vertexCapacity (fun fromVertex data =>
    if !g.isValidVertex fromVertex then data
    else (g.outEdges fromVertex).foldl (enterEdge fromVertex) data) data

/-- The array `valid`. -/
def validVertices (g : GraphImpl) : List ℕ :=
  (List.range g.vertexCapacity).filter fun v : ℕ => g.isValidVertex v

/-- The body of the innermost loop. -/
def improveEntry (k i : ℕ) (dik : WithTop ℚ) (data : Block (WithTop ℚ)) (j : ℕ) :
    Block (WithTop ℚ) :=
  let dkj := data k j
  if dkj = ⊤ then data
  else
    let nd := dik + dkj
    if nd < data i j then data.set i j nd else data

/-- The body of the middle loop. -/
def improveRow (valid : List ℕ) (k : ℕ) (data : Block (WithTop ℚ)) (i : ℕ) : Block (WithTop ℚ) :=
  let dik := data i k
  if dik = ⊤ then data else valid.foldl (improveEntry k i dik) data

/-- The body of the outer loop. -/
def throughVertex (valid : List ℕ) (data : Block (WithTop ℚ)) (k : ℕ) : Block (WithTop ℚ) :=
  valid.foldl (improveRow valid k) data

/-- `graph_floyd_warshall_impl`. -/
def floydWarshall (g : GraphImpl) (a : Allocator) : Option (MatrixImpl (WithTop ℚ)) :=
  if g.vertexCapacity = 0 then none
  else
    match createDistMatrix g.vertexCapacity g.vertexCapacity a with
    | (none, _) => none
    | (some dist, a) =>
      let data := g.enterEdges (g.zeroDiagonal (noEdges g.vertexCapacity dist.data))
      let (ok, _) := a.alloc
      if !ok then none
      else
        let valid := g.validVertices
        some { dist with data := valid.foldl (throughVertex valid) data }

/-! ## The table before the first turn

The diagonal is zero before the edges are entered, and an edge takes the minimum with what is there:
a loop of positive weight is entered without effect. -/

variable {g : GraphImpl} {data : Block (WithTop ℚ)} {n x y : ℕ}

theorem noEdges_apply (hx : x < n) (hy : y < n) : noEdges n data x y = ⊤ :=
  fill_apply (fun _ _ => ⊤) hx hy

theorem zeroDiagonal_apply (hx : x < g.vertexCapacity) :
    g.zeroDiagonal data x y = if x = y ∧ x ∈ g.vertices then 0 else data x y := by
  refine loop_once hx (G := fun c => if x = y ∧ x ∈ g.vertices then 0 else c) (fun r => ?_)
    (fun v _ hv r => ?_) data
  · by_cases hvalid : x ∈ g.vertices
    · rw [if_pos (isValidVertex_cast.mpr hvalid)]
      by_cases hxy : x = y
      · rw [if_pos ⟨hxy, hvalid⟩, ← hxy]
        exact set_self
      · rw [if_neg fun h => hxy h.1]
        exact set_of_ne (.inr (Ne.symm hxy))
    · rw [if_neg (mt isValidVertex_cast.mp hvalid), if_neg fun h => hvalid h.2]
  · split
    · exact set_of_ne (.inl hv.symm)
    · rfl

theorem enterEdge_of_ne {u : ℕ} (hx : x ≠ u) (data : Block (WithTop ℚ)) (e : ℕ × WithTop ℚ) :
    enterEdge u data e x y = data x y := by
  rw [enterEdge]
  split
  · exact set_of_ne (.inl hx)
  · rfl

/-- One edge out of `u` takes the minimum in one cell. -/
theorem enterEdge_apply (u : ℕ) (data : Block (WithTop ℚ)) (e : ℕ × WithTop ℚ) :
    enterEdge u data e u y = if y = e.1 then min (data u y) e.2 else data u y := by
  rw [enterEdge]
  by_cases hy : y = e.1
  · subst hy
    rw [if_pos rfl]
    split
    · next hlt => exact set_self.trans (min_eq_right hlt.le).symm
    · next hnot => exact (min_eq_left (not_lt.mp hnot)).symm
  · rw [if_neg hy]
    split
    · exact set_of_ne (.inr hy)
    · rfl

/-- The loop over the edges out of `u` changes the row of `u`, where it takes minima. -/
theorem foldl_enterEdge_apply (u : ℕ) (es : List (ℕ × WithTop ℚ)) (data : Block (WithTop ℚ)) :
    (x ≠ u → es.foldl (enterEdge u) data x y = data x y) ∧
      ∀ z, z ≤ es.foldl (enterEdge u) data u y ↔
        z ≤ data u y ∧ ∀ c, (y, c) ∈ es → z ≤ c := by
  induction es generalizing data with
  | nil => exact ⟨fun _ => rfl, fun z => by simp⟩
  | cons e es ih =>
    obtain ⟨hother, hrow⟩ := ih (enterEdge u data e)
    refine ⟨fun hx => ?_, fun z => ?_⟩
    · rw [List.foldl_cons, hother hx, enterEdge_of_ne hx]
    · rw [List.foldl_cons, hrow, enterEdge_apply]
      constructor
      · rintro ⟨hle, hrest⟩
        split at hle
        · next hy =>
          refine ⟨hle.trans (min_le_left _ _), fun c hc => ?_⟩
          rcases List.mem_cons.mp hc with rfl | hc
          · exact hle.trans (min_le_right _ _)
          · exact hrest c hc
        · next hy =>
          refine ⟨hle, fun c hc => ?_⟩
          rcases List.mem_cons.mp hc with rfl | hc
          · exact absurd rfl hy
          · exact hrest c hc
      · rintro ⟨hle, hall⟩
        refine ⟨?_, fun c hc => hall c (List.mem_cons_of_mem _ hc)⟩
        split
        · next hy => exact le_min hle (hall e.2 (by rw [hy]; exact List.mem_cons_self))
        · exact hle

theorem le_weights_iff (h : WellFormed g) {u v : ℕ} (hu : u ∈ g.vertices) (z : WithTop ℚ) :
    z ≤ g.weights u v ↔ ∀ c, (v, c) ∈ g.outEdges u → z ≤ c := by
  constructor
  · intro hz c hc
    cases c with
    | top => exact le_top
    | coe c => exact hz.trans ((mem_outEdges h hu c).mp hc).le
  · intro hall
    cases hw : g.weights u v with
    | top => exact le_top
    | coe c => exact hall c ((mem_outEdges h hu c).mpr hw)

theorem enterEdges_apply (h : WellFormed g) (hx : x < g.vertexCapacity) :
    g.enterEdges data x y = min (data x y) (g.weights x y) := by
  refine loop_once hx (G := fun c => min c (g.weights x y)) (fun r => ?_) (fun u _ hu r => ?_) data
  · by_cases hvalid : x ∈ g.vertices
    · rw [isValidVertex_cast.mpr hvalid, Bool.not_true, if_neg Bool.false_ne_true]
      refine eq_of_forall_le_iff fun z => ?_
      rw [(foldl_enterEdge_apply (x := x) x (g.outEdges x) r).2 z, le_min_iff,
        le_weights_iff h hvalid]
    · have htop : g.weights x y = ⊤ := by
        by_contra hne
        exact hvalid (mem_of_weights_ne_top hne).1
      have hskip := mt isValidVertex_cast.mp hvalid
      rw [if_pos (by simpa using hskip), htop, min_eq_left le_top]
  · split
    · rfl
    · exact (foldl_enterEdge_apply u (g.outEdges u) r).1 hu.symm

/-! ## One more vertex

From the innermost loop outwards. The list of the vertices has no repetitions, so each entry is
written at most once in a turn. -/

variable {valid : List ℕ} {k : ℕ}

theorem improveEntry_apply (k i j : ℕ) (dik : WithTop ℚ) : improveEntry k i dik data j x y =
    if x = i ∧ y = j then min (data i j) (dik + data k j) else data x y := by
  have hsame : improveEntry k i dik data j =
      if dik + data k j < data i j then data.set i j (dik + data k j) else data := by
    rw [improveEntry]
    by_cases htop : data k j = ⊤
    · rw [if_pos htop, htop, WithTop.add_top, if_neg not_top_lt]
    · rw [if_neg htop]
  rw [hsame]
  by_cases hcell : x = i ∧ y = j
  · obtain ⟨rfl, rfl⟩ := hcell
    rw [if_pos (show x = x ∧ y = y from ⟨rfl, rfl⟩)]
    split
    · next hlt => exact set_self.trans (min_eq_right hlt.le).symm
    · next hnot => exact (min_eq_left (not_lt.mp hnot)).symm
  · rw [if_neg hcell]
    split
    · exact set_of_ne (not_and_or.mp hcell)
    · rfl

/-- The innermost loop. It comes to a column once, so it reads what was there before it. -/
theorem foldl_improveEntry_apply (k i : ℕ) (dik : WithTop ℚ) : ∀ {js : List ℕ}, js.Nodup →
    ∀ data : Block (WithTop ℚ), js.foldl (improveEntry k i dik) data x y =
      if x = i ∧ y ∈ js then min (data i y) (dik + data k y) else data x y := by
  intro js
  induction js with
  | nil => exact fun _ data => (if_neg fun h => List.not_mem_nil h.2).symm
  | cons j js ih =>
    intro hnodup data
    obtain ⟨hj, hjs⟩ := List.nodup_cons.mp hnodup
    rw [List.foldl_cons, ih hjs]
    by_cases hy : y = j
    · subst hy
      rw [if_neg fun h => hj h.2, improveEntry_apply]
      simp
    · simp only [improveEntry_apply, hy, and_false, if_false, List.mem_cons, false_or]

theorem improveRow_apply (hvalid : valid.Nodup) (data : Block (WithTop ℚ)) (i : ℕ) :
    improveRow valid k data i x y =
      if x = i ∧ y ∈ valid then min (data i y) (data i k + data k y) else data x y := by
  rw [improveRow]
  by_cases htop : data i k = ⊤
  · rw [if_pos htop, htop, WithTop.top_add, min_eq_left le_top]
    split
    · next h => rw [h.1]
    · rfl
  · rw [if_neg htop, foldl_improveEntry_apply k i _ hvalid]

/-- **A turn of the outer loop.** Where it costs nothing to stay at `k`, the row of `k` does not
change while it is read. -/
theorem throughVertex_apply (hvalid : valid.Nodup) (hk : data k k = 0) :
    throughVertex valid data k x y =
      if x ∈ valid ∧ y ∈ valid then min (data x y) (data x k + data k y) else data x y := by
  have hloop : ∀ {is : List ℕ}, is.Nodup → ∀ {data : Block (WithTop ℚ)}, data k k = 0 →
      is.foldl (improveRow valid k) data x y =
        if x ∈ is ∧ y ∈ valid then min (data x y) (data x k + data k y) else data x y := by
    intro is
    induction is with
    | nil => exact fun _ data _ => (if_neg fun h => List.not_mem_nil h.1).symm
    | cons i is ih =>
      intro hnodup data hk
      obtain ⟨hi, his⟩ := List.nodup_cons.mp hnodup
      have hrow : ∀ y, improveRow valid k data i k y = data k y := by
        intro y
        rw [improveRow_apply hvalid]
        split
        · next h => rw [← h.1, hk, zero_add, min_self]
        · rfl
      rw [List.foldl_cons, ih his ((hrow k).trans hk), hrow]
      by_cases hx : x = i
      · subst hx
        rw [if_neg fun h => hi h.1, improveRow_apply hvalid]
        simp
      · simp only [improveRow_apply hvalid, hx, false_and, if_false, List.mem_cons, false_or]
  exact hloop hvalid hk

/-! ## The loop over the vertices

The entries outside the matrix do not exist, and the general theory is about functions of all
vertices; `entries` fills in infinity. -/

/-- The entries of the matrix, with nothing outside. -/
def entries (n : ℕ) (data : Block (WithTop ℚ)) (i j : ℕ) : WithTop ℚ :=
  if i < n ∧ j < n then data i j else ⊤

theorem entries_of_lt (hx : x < n) (hy : y < n) : entries n data x y = data x y := if_pos ⟨hx, hy⟩

theorem mem_validVertices {v : ℕ} : v ∈ g.validVertices ↔ v ∈ g.vertices := by
  rw [validVertices, List.mem_filter, List.mem_range, isValidVertex_cast]
  exact ⟨fun h => h.2, fun h => ⟨(mem_vertices.mp h).1, h⟩⟩

theorem nodup_validVertices : g.validVertices.Nodup := List.nodup_range.filter _

/-- A turn of the outer loop takes one more vertex. -/
theorem entries_throughVertex {taken : Set ℕ}
    (h : AllPairs g.weights g.vertices taken (entries g.vertexCapacity data))
    (hcycle : ∀ s, ¬ NegativeCycle g.weights s) (hk : k ∈ g.vertices) :
    entries g.vertexCapacity (throughVertex g.validVertices data k) =
      through k (entries g.vertexCapacity data) := by
  have hkn : k < g.vertexCapacity := (mem_vertices.mp hk).1
  have hzero := h.diag_eq hcycle (Finset.mem_coe.mpr hk)
  rw [entries_of_lt hkn hkn] at hzero
  funext x y
  by_cases hxy : x < g.vertexCapacity ∧ y < g.vertexCapacity
  · obtain ⟨hx, hy⟩ := hxy
    rw [through, entries_of_lt hx hy, entries_of_lt hx hy, entries_of_lt hx hkn,
      entries_of_lt hkn hy, throughVertex_apply nodup_validVertices hzero]
    split
    · rfl
    · next hnot =>
      -- an entry of an absent vertex
      rw [mem_validVertices, mem_validVertices] at hnot
      have htop : entries g.vertexCapacity data x k + entries g.vertexCapacity data k y = ⊤ := by
        by_contra hne
        rw [WithTop.add_eq_top, not_or] at hne
        exact hnot ⟨(h.mem x k hne.1).1, (h.mem k y hne.2).2⟩
      rw [entries_of_lt hx hkn, entries_of_lt hkn hy] at htop
      rw [htop, min_eq_left le_top]
  · have htop : entries g.vertexCapacity data x k + entries g.vertexCapacity data k y = ⊤ := by
      rw [WithTop.add_eq_top]
      rcases not_and_or.mp hxy with hx | hy
      · exact .inl (if_neg fun h => hx h.1)
      · exact .inr (if_neg fun h => hy h.2)
    rw [through, htop, min_eq_left le_top, entries, entries, if_neg hxy, if_neg hxy]

/-- **The outer loop**, by induction on the vertices still to come. -/
theorem foldl_throughVertex (hcycle : ∀ s, ¬ NegativeCycle g.weights s) : ∀ {ks : List ℕ}
    {taken : Set ℕ} {data : Block (WithTop ℚ)}, (∀ k ∈ ks, k ∈ g.vertices) →
      AllPairs g.weights g.vertices taken (entries g.vertexCapacity data) →
      AllPairs g.weights g.vertices (taken ∪ {k | k ∈ ks})
        (entries g.vertexCapacity (ks.foldl (throughVertex g.validVertices) data)) := by
  intro ks
  induction ks with
  | nil =>
    intro taken data _ h
    simpa using h
  | cons k ks ih =>
    intro taken data hks h
    have hk := hks k List.mem_cons_self
    have htaken : AllPairs g.weights g.vertices (insert k taken)
        (entries g.vertexCapacity (throughVertex g.validVertices data k)) := by
      rw [entries_throughVertex h hcycle hk]
      exact h.through hcycle (Finset.mem_coe.mpr hk)
    have hnext := ih (fun k' hk' => hks k' (List.mem_cons_of_mem _ hk')) htaken
    have hset : taken ∪ {k' | k' ∈ k :: ks} = insert k taken ∪ {k' | k' ∈ ks} := by
      ext k'
      simp only [Set.mem_union, Set.mem_insert_iff, Set.mem_ofPred_eq, List.mem_cons]
      tauto
    rw [hset]
    exact hnext

/-- Before the outer loop the matrix is the table of the edges. -/
theorem entries_enterEdges (h : WellFormed g) (data : Block (WithTop ℚ)) :
    entries g.vertexCapacity
        (g.enterEdges (g.zeroDiagonal (noEdges g.vertexCapacity data))) =
      edgeTable g.weights (g.vertices : Set ℕ) := by
  funext x y
  rw [entries, edgeTable]
  by_cases hxy : x < g.vertexCapacity ∧ y < g.vertexCapacity
  · rw [if_pos hxy, enterEdges_apply h hxy.1, zeroDiagonal_apply hxy.1, noEdges_apply hxy.1 hxy.2]
    rfl
  · have hne : ¬ (x = y ∧ x ∈ g.vertices) := by
      rintro ⟨rfl, hx⟩
      exact hxy ⟨(mem_vertices.mp hx).1, (mem_vertices.mp hx).1⟩
    have htop : g.weights x y = ⊤ := by
      by_contra hedge
      obtain ⟨hx, hy⟩ := mem_of_weights_ne_top hedge
      exact hxy ⟨(mem_vertices.mp hx).1, (mem_vertices.mp hy).1⟩
    rw [if_neg hxy, htop, min_eq_left le_top]
    exact (if_neg hne).symm

end GraphImpl

open GraphImpl

variable {g : GraphImpl}

/-- With allocations succeeding the call returns the table that takes every vertex. -/
theorem floydWarshall_spec (hwf : WellFormed g) (hcycle : ∀ s, ¬ NegativeCycle g.weights s) :
    ∃ dist, g.floydWarshall .always = some dist ∧ dist.rows = g.vertexCapacity ∧
      dist.cols = g.vertexCapacity ∧
      AllPairs g.weights g.vertices g.vertices (entries g.vertexCapacity dist.data) := by
  have hpos := hwf.capacity_pos
  have hstart : AllPairs g.weights g.vertices ∅ (edgeTable g.weights (g.vertices : Set ℕ)) :=
    allPairs_edgeTable fun i j hne => mem_of_weights_ne_top hne
  rw [← entries_enterEdges hwf fun _ _ => 0] at hstart
  have hloop := foldl_throughVertex hcycle (fun k hk => mem_validVertices.mp hk) hstart
  have hset : (∅ : Set ℕ) ∪ {k | k ∈ g.validVertices} = (g.vertices : Set ℕ) := by
    ext k
    rw [Set.empty_union, Set.mem_ofPred_eq, mem_validVertices, Finset.mem_coe]
  rw [hset] at hloop
  refine ⟨⟨_, g.vertexCapacity, g.vertexCapacity⟩, ?_, rfl, rfl, hloop⟩
  rw [floydWarshall, if_neg hpos.ne', createDistMatrix, if_neg (by omega), allocAll_always]
  rfl

/-- **The Floyd–Warshall algorithm is right** on every graph that calls can build and that has no
negative cycle: a row of a vertex holds the least weights of walks, which are what the Bellman–Ford
algorithm computes, and an entry is infinite where there is no walk or a vertex is absent. -/
theorem floydWarshall_correct (hg : Built g) (hcycle : ∀ s, ¬ NegativeCycle g.weights s) :
    ∃ dist, g.floydWarshall .always = some dist ∧ dist.rows = g.vertexCapacity ∧
      dist.cols = g.vertexCapacity ∧
      (∀ i < g.vertexCapacity, ∀ j < g.vertexCapacity,
        (dist.data i j = ⊤ ↔ i ∉ g.vertices ∨ j ∉ g.vertices ∨ ¬ Reaches g.weights i j)) ∧
      ∀ i ∈ g.vertices, dist.data i i = 0 ∧ ∃ d, IsDistance g.weights i d ∧
        (∀ j < g.vertexCapacity, dist.data i j = d j) ∧
        g.bellmanFord i .always = ⟨1, some ⟨g.vertexCapacity, d⟩⟩ := by
  obtain ⟨dist, hreturn, hrows, hcols, hall⟩ := floydWarshall_spec hg.wellFormed hcycle
  have hdist : ∀ i ∈ g.vertices,
      IsDistance g.weights i (entries g.vertexCapacity dist.data i) := fun i hi =>
    hall.isDistance (fun u v hne => Finset.mem_coe.mpr (mem_of_weights_ne_top hne).1)
      (Finset.mem_coe.mpr hi)
  have hentry : ∀ {i j}, i < g.vertexCapacity → j < g.vertexCapacity →
      dist.data i j = entries g.vertexCapacity dist.data i j := fun hi hj =>
    (entries_of_lt hi hj).symm
  refine ⟨dist, hreturn, hrows, hcols, fun i hi j hj => ?_, fun i hi => ?_⟩
  · rw [hentry hi hj]
    constructor
    · intro htop
      by_cases hmem : i ∈ g.vertices
      · exact .inr (.inr ((hdist i hmem).eq_top_iff.mp htop))
      · exact .inl hmem
    · intro habsent
      by_contra hne
      obtain ⟨hi', hj'⟩ := hall.mem i j hne
      rcases habsent with hi'' | hj'' | hreach
      · exact hi'' hi'
      · exact hj'' hj'
      · exact hne ((hdist i hi').eq_top_iff.mpr hreach)
  · have hin := (mem_vertices.mp hi).1
    have hzero := hall.diag_eq hcycle (Finset.mem_coe.mpr hi)
    rw [entries_of_lt hin hin] at hzero
    obtain ⟨d, hbellman, hd⟩ : ∃ d, g.bellmanFord i .always = ⟨1, some ⟨g.vertexCapacity, d⟩⟩ ∧
        IsDistance g.weights i d := by
      rcases bellmanFord_cases hg (hasVertex_cast.mpr (mem_vertices.mp hi)) with
        ⟨hnegative, -⟩ | ⟨-, d, hd, hbellman⟩
      · exact absurd hnegative (hcycle _)
      · exact ⟨d, hbellman, hd⟩
    refine ⟨hzero, d, hd, fun j hj => ?_, hbellman⟩
    rw [hentry hin hj, (hdist i hi).unique hd]

/-- A negative edge between two of the vertices, in a matrix with gaps. -/
theorem floydWarshall_correct_edge :
    ∃ g, build (fun _ => 0) .directed .adjacencyList .bfs .bellmanFord Allocator.always
        [.addEdge 3 5 ((-1 : ℚ) : WithTop ℚ)] = some (g, Allocator.always) ∧
      ∃ dist, g.floydWarshall .always = some dist ∧ dist.rows = g.vertexCapacity ∧
        dist.cols = g.vertexCapacity ∧
        (∀ i < g.vertexCapacity, ∀ j < g.vertexCapacity,
          (dist.data i j = ⊤ ↔ i ∉ g.vertices ∨ j ∉ g.vertices ∨ ¬ Reaches g.weights i j)) ∧
        ∀ i ∈ g.vertices, dist.data i i = 0 ∧ ∃ d, IsDistance g.weights i d ∧
          (∀ j < g.vertexCapacity, dist.data i j = d j) ∧
          g.bellmanFord i .always = ⟨1, some ⟨g.vertexCapacity, d⟩⟩ := by
  obtain ⟨g, hg, -, hweights, -⟩ :=
    exists_singleEdge (fun _ => 0) .bellmanFord (x := 3) (y := 5) (by norm_num) (by norm_num) (-1)
  have hedge : ∀ u v (c : ℚ), g.weights u v = c → u = 3 ∧ v = 5 := by
    intro u v c hc
    rw [hweights] at hc
    by_contra hnot
    rw [if_neg hnot] at hc
    exact absurd hc WithTop.top_ne_coe
  refine ⟨g, hg, floydWarshall_correct ⟨_, _, _, _, _, _, _, _, hg⟩ ?_⟩
  rintro s ⟨v, -, n, x, hwalk, hneg⟩
  cases hwalk with
  | nil => exact lt_irrefl _ hneg
  | snoc hwalk hc =>
    obtain ⟨rfl, rfl⟩ := hedge _ _ _ hc
    cases hwalk with
    | snoc _ hc => exact absurd (hedge _ _ _ hc).2 (by norm_num)

end Graph

end OvaLib
