import OvaLib.Graph.Capacity

/-!
# The products of the adjacency matrix

The size of a new matrix is computed in `size_t`, its fill loop and the indices of its cells in
`int`. The capacity is a power of two, so both agree up to 32768 vertices: the square of 65536 is `2
^ 32`.

## What can go wrong

At a capacity of 65536 the matrix that is allocated has `2 ^ 32` cells, if it can be had. The bound
of the loop that fills it is the same product as an `int`, which is zero: no cell is set to
`GRAPH_NO_EDGE`. The offsets of the rows that are copied, and later the index of every cell in a row
from 32768 on, exceed `INT_MAX`. A matrix that is never asked about such rows might still work by
chance. `CellsInRange` and `GrowsInRange` do not wait for that: they speak of the products that any
access computes, and of every cell of a new matrix.

## How the proof goes

The invariant is that the capacity is a power of two of at most `2 ^ 15`. Under it all products are
in range, and a call keeps it exactly if each of its growths is small. Conversely the first growth
that is not small computes a bound that is out of range. So for a run both sides fail at the same
call, and the equivalence is an induction on the calls.

A growth whose arrays cannot be had does not count, since the graph keeps its capacity; the three
attempts it makes are named in the condition.

## Main results

* `cellsInRange_iff` — for which capacities the indices are in range
* `SmallCapacity.growsInRange_iff` — and for which ids a growth is
* `matrix_in_range_iff` — the same over whole runs
-/

namespace OvaLib

namespace Graph

open GraphImpl

/-! ## What is computed -/

/-- The products and sums of all accesses are `int`s, and the cells are in the square that was
allocated. -/
structure CellsInRange (g : GraphImpl) : Prop where
  square : InInt ((g.vertexCapacity : ℤ) * g.vertexCapacity)
  /-- The product and the sum in the index of a cell, and the index as it is computed. -/
  index : ∀ u < g.vertexCapacity, ∀ v < g.vertexCapacity,
    InInt ((u : ℤ) * g.vertexCapacity) ∧ InInt ((u : ℤ) * g.vertexCapacity + v) ∧
      0 ≤ g.cell u v ∧ g.cell u v < ((g.vertexCapacity * g.vertexCapacity : ℕ) : ℤ)

/-- If the matrix grows, then the bound of the fill loop and the offsets of the copied rows are
`int`s, and every cell that is not copied holds `GRAPH_NO_EDGE`. -/
def GrowsInRange (junk : ℤ → WithTop ℚ) (g : GraphImpl) (id : ℤ) (a : Allocator) : Prop :=
  ∀ g' a', g.ensureCapacity junk id a = some (g', a') → g'.vertexCapacity ≠ g.vertexCapacity →
    InInt ((g'.vertexCapacity : ℤ) * g'.vertexCapacity) ∧
      (∀ i < g.vertexCapacity,
        InInt ((i : ℤ) * g'.vertexCapacity) ∧ InInt ((i : ℤ) * g.vertexCapacity)) ∧
      ∀ u < g'.vertexCapacity, ∀ v < g'.vertexCapacity,
        ¬(u < g.vertexCapacity ∧ v < g.vertexCapacity) →
          g'.adjMatrix ((u * g'.vertexCapacity + v : ℕ) : ℤ) = ⊤

/-- The growths of a call are in range. Between the two of `add_edge`, so are the cells. -/
def Call.InRange (junk : ℤ → WithTop ℚ) (g : GraphImpl) (a : Allocator) : Call → Prop
  | .addVertex id => GrowsInRange junk g id a
  | .addEdge u v _ =>
    0 ≤ u → 0 ≤ v → GrowsInRange junk g u a ∧ ∀ g' a', g.addVertex junk u a = some (g', a') →
      CellsInRange g' ∧ GrowsInRange junk g' v a'
  | .removeEdge _ _ => True

/-- In every state of a run the cells are in range, and so is every growth. -/
def RunInRange (junk : ℤ → WithTop ℚ) : GraphImpl → Allocator → List Call → Prop
  | g, _, [] => CellsInRange g
  | g, a, c :: cs =>
    CellsInRange g ∧ c.InRange junk g a ∧
      ∀ g' a', c.run junk g a = some (g', a') → RunInRange junk g' a' cs

/-! ## The condition

On the calls and the allocations, not on what the calls compute. -/

/-- The id is below 32768, or one of the three arrays of a growth cannot be had. -/
def SmallGrowth (id : ℤ) (a : Allocator) : Prop := id < 32768 ∨ ∃ k < 3, a.outcome k = false

/-- The growths of a call are small. -/
def Call.Small (junk : ℤ → WithTop ℚ) (g : GraphImpl) (a : Allocator) : Call → Prop
  | .addVertex id => SmallGrowth id a
  | .addEdge u v _ =>
    0 ≤ u → 0 ≤ v → SmallGrowth u a ∧
      ∀ g' a', g.addVertex junk u a = some (g', a') → SmallGrowth v a'
  | .removeEdge _ _ => True

/-- The growths of a run are small. -/
def RunSmall (junk : ℤ → WithTop ℚ) : GraphImpl → Allocator → List Call → Prop
  | _, _, [] => True
  | g, a, c :: cs =>
    c.Small junk g a ∧ ∀ g' a', c.run junk g a = some (g', a') → RunSmall junk g' a' cs

/-! ## The threshold

The last capacity whose square is an `int`, and the first whose square is not. -/

/-- A matrix whose square is an `int`. -/
def SmallCapacity (g : GraphImpl) : Prop := ∃ k, 3 ≤ k ∧ k ≤ 15 ∧ g.vertexCapacity = 2 ^ k

variable {g g' : GraphImpl} (junk : ℤ → WithTop ℚ) {a a' : Allocator} {id : ℤ}

theorem SmallCapacity.pow (h : SmallCapacity g) : PowCapacity g := by
  obtain ⟨k, hk3, hk15, hk⟩ := h
  exact ⟨k, hk3, hk15.trans (by norm_num), hk⟩

theorem SmallCapacity.le (h : SmallCapacity g) : g.vertexCapacity ≤ 32768 := by
  obtain ⟨k, -, hk15, hk⟩ := h
  rw [hk]
  exact Nat.pow_le_pow_right (by norm_num) hk15 (n := 2)

theorem SmallCapacity.of_sameArrays (h : SmallCapacity g) (hsame : SameArrays g g') :
    SmallCapacity g' := by
  obtain ⟨k, hk3, hk15, hk⟩ := h
  exact ⟨k, hk3, hk15, hsame.1.trans hk⟩

/-- A power of two whose square is an `int` is at most `2 ^ 15`. -/
theorem pow_le_fifteen {k : ℕ} (h : InInt (((2 ^ k : ℕ) : ℤ) * ((2 ^ k : ℕ) : ℤ))) : k ≤ 15 := by
  by_contra hk
  have hle : 2 ^ 16 ≤ 2 ^ k := Nat.pow_le_pow_right (by norm_num) (by omega)
  have hsquare : 2 ^ 16 * 2 ^ 16 ≤ 2 ^ k * 2 ^ k := Nat.mul_le_mul hle hle
  obtain ⟨-, hmax⟩ := h
  rw [intMax_cast, ← Nat.cast_mul] at hmax
  omega

/-- A product of a row and the length of a row. -/
theorem inInt_mul {cap i : ℕ} (hcap : cap ≤ 32768) (hi : i ≤ cap) : InInt ((i : ℤ) * cap) := by
  have hle := (Nat.mul_le_mul_right cap hi).trans (mul_self_le hcap)
  rw [← Nat.cast_mul]
  exact inInt_of_nonneg (by omega) (by rw [intMax_cast]; omega)

/-- The cells are in range exactly up to 32768 vertices. -/
theorem cellsInRange_iff (h : PowCapacity g) : CellsInRange g ↔ SmallCapacity g := by
  constructor
  · intro hcells
    obtain ⟨k, hk3, -, hk⟩ := h
    have hsquare := hcells.square
    rw [hk] at hsquare
    exact ⟨k, hk3, pow_le_fifteen hsquare, hk⟩
  · intro hsmall
    have hcap := hsmall.le
    refine ⟨inInt_mul hcap le_rfl, fun u hu v hv => ?_⟩
    have hlt := index_lt hu hv
    have hle := mul_self_le hcap
    refine ⟨inInt_mul hcap hu.le, ?_, ?_, ?_⟩
    · rw [← Nat.cast_mul, ← Nat.cast_add]
      exact inInt_of_nonneg (by omega) (by rw [intMax_cast]; omega)
    · rw [cell_eq hcap hu hv]
      omega
    · rw [cell_eq hcap hu hv]
      omega

/-- What a small growth leads to, and what the loop then returns. -/
theorem SmallCapacity.ensureCapacity (h : SmallCapacity g)
    (hsmall : SmallGrowth id a) (hg' : g.ensureCapacity junk id a = some (g', a')) :
    SmallCapacity g' ∧ (g'.vertexCapacity ≠ g.vertexCapacity →
      g' = (g.reallocate junk g'.vertexCapacity a).1 ∧ g.vertexCapacity ≤ g'.vertexCapacity) := by
  rcases h.pow.ensureCapacity_cases junk hg' with ⟨rfl, -⟩ |
    ⟨j, -, -, hnonneg, hgt, -, hloop, rfl⟩
  · exact ⟨h, fun hne => absurd rfl hne⟩
  · rcases reallocate_cases junk g (2 ^ j) a with ⟨-, hsame⟩ | ⟨hall, hgrown⟩
    · rw [hsame]
      exact ⟨h, fun hne => absurd rfl hne⟩
    · have hlt : id < 32768 := hsmall.resolve_right fun ⟨k, hk, hfail⟩ => by
        rw [hall k hk] at hfail
        exact absurd hfail (by simp)
      obtain ⟨k, hk3, hk15, hk⟩ := h
      rw [hk] at hloop hgt
      push_cast at hloop
      rw [int32_eq (by omega) (by omega)] at hloop hgt
      obtain ⟨i, hki, hi15, -, hi⟩ := GraphImpl.doubleUntil_pow (b := 15) (by norm_num)
        (show id + 1 ≤ 2 ^ 15 by norm_num; omega) hk15 (show 15 - k < 64 by omega)
      have hij : 2 ^ j = 2 ^ i := by
        have hcast := Option.some.inj (hloop.symm.trans hi)
        exact_mod_cast hcast
      rw [hgrown]
      exact ⟨⟨i, hk3.trans hki, hi15, hij⟩,
        fun _ => ⟨hgrown.symm, (hk.trans_le (Nat.pow_le_pow_right (by norm_num) hki)).trans_eq
          hij.symm⟩⟩

/-- A small growth is in range. -/
theorem SmallCapacity.growsInRange (h : SmallCapacity g) (hrep : g.rep = .adjacencyMatrix)
    (hsmall : SmallGrowth id a) : GrowsInRange junk g id a := by
  intro g' a' hg' hne
  obtain ⟨h', hgrown⟩ := h.ensureCapacity junk hsmall hg'
  obtain ⟨hspec, hle⟩ := hgrown hne
  have hcap := h'.le
  refine ⟨inInt_mul hcap le_rfl, fun i hi => ⟨inInt_mul hcap (by omega), inInt_mul h.le hi.le⟩,
    fun u hu v hv hnew => ?_⟩
  have hmatrix : g'.adjMatrix = (List.range g.vertexCapacity).foldl
      (copyRow g.adjMatrix g.vertexCapacity g'.vertexCapacity)
      (newAdjMatrix junk g'.vertexCapacity) := by
    rcases reallocate_cases junk g g'.vertexCapacity a with ⟨-, hsame⟩ | ⟨-, hgrown⟩
    · exact absurd (congrArg vertexCapacity (hspec.trans hsame)) hne
    · exact (congrArg adjMatrix (hspec.trans hgrown)).trans (grown_adjMatrix junk hrep _)
  rw [hmatrix, copyRows_apply junk hle hcap hu hv le_rfl, if_neg hnew]

/-- A growth is in range exactly when it is small: to 65536 vertices, the bound of the fill loop
overflows. -/
theorem SmallCapacity.growsInRange_iff (h : SmallCapacity g) (hrep : g.rep = .adjacencyMatrix)
    (hid : id < 2 ^ 30) : GrowsInRange junk g id a ↔ SmallGrowth id a := by
  refine ⟨fun hgrows => ?_, h.growsInRange junk hrep⟩
  by_contra hlarge
  obtain ⟨hge, hall⟩ := not_or.mp hlarge
  have hcap := h.le
  have hreq : int32 (id + 1) = id + 1 := int32_eq (by omega) (by omega)
  have hthirty : int32 (id + 1) ≤ 2 ^ 30 := by omega
  obtain ⟨g', a', hg'⟩ := h.pow.ensureCapacity_returns junk hthirty a
  rcases h.pow.ensureCapacity_cases junk hg' with ⟨-, hfits⟩ | ⟨j, -, -, -, -, hreach, -, heq⟩
  · have hfits' := hfits (by omega)
    omega
  · rcases reallocate_cases junk g (2 ^ j) a with ⟨hfail, -⟩ | ⟨-, hgrown⟩
    · exact hall hfail
    · have hnew : g'.vertexCapacity = 2 ^ j := congrArg vertexCapacity (heq.trans hgrown)
      obtain ⟨hsquare, -, -⟩ := hgrows g' a' hg' (by omega)
      rw [hnew] at hsquare
      have hle : 2 ^ j ≤ 2 ^ 15 := Nat.pow_le_pow_right (by norm_num) (pow_le_fifteen hsquare)
      omega

theorem SmallCapacity.addVertex (h : SmallCapacity g) (hsmall : SmallGrowth id a)
    (hg' : g.addVertex junk id a = some (g', a')) : SmallCapacity g' := by
  rcases addVertex_arrays junk hg' with rfl | ⟨g₁, a₁, hensure, hsame⟩
  · exact h
  · exact (h.ensureCapacity junk hsmall hensure).1.of_sameArrays hsame

/-- One call keeps the matrix small. -/
theorem SmallCapacity.run (h : SmallCapacity g) {c : Call} (hsmall : c.Small junk g a)
    (hg' : c.run junk g a = some (g', a')) : SmallCapacity g' := by
  cases c with
  | addVertex id => exact h.addVertex junk hsmall hg'
  | addEdge u v w =>
    rcases addEdge_arrays junk hg' with ⟨rfl, -⟩ | ⟨g₁, a₁, g₂, a₂, hu, hv, hg₁, hg₂, hsame⟩
    · exact h
    · obtain ⟨hsmall₁, hsmall₂⟩ := hsmall hu hv
      have h₁ := h.addVertex junk hsmall₁ hg₁
      exact (h₁.addVertex junk (hsmall₂ g₁ a₁ hg₁) hg₂).of_sameArrays hsame
  | removeEdge u v =>
    obtain ⟨rfl, -⟩ := Prod.mk.inj (Option.some.inj hg')
    exact h.of_sameArrays (sameArrays_of_edgesOnly (edgesOnly_removeEdge g u v))

/-- One call is in range exactly when its growths are small. -/
theorem SmallCapacity.call_iff (h : SmallCapacity g) (hrep : g.rep = .adjacencyMatrix) {c : Call}
    (hids : ∀ id ∈ c.ids, id < 2 ^ 30) : c.InRange junk g a ↔ c.Small junk g a := by
  cases c with
  | addVertex id => exact h.growsInRange_iff junk hrep (hids id List.mem_cons_self)
  | addEdge u v w =>
    have hu := h.growsInRange_iff junk (a := a) hrep (hids u List.mem_cons_self)
    have hv : SmallGrowth u a → ∀ g' a', g.addVertex junk u a = some (g', a') →
        (CellsInRange g' ∧ GrowsInRange junk g' v a' ↔ SmallGrowth v a') := by
      intro hsmall g' a' hg'
      have h' := h.addVertex junk hsmall hg'
      have hrep' := (h.pow.addVertex junk hg').2.trans hrep
      rw [h'.growsInRange_iff junk hrep'
        (hids v (List.mem_cons_of_mem _ List.mem_cons_self)), cellsInRange_iff h'.pow]
      exact and_iff_right h'
    constructor
    · intro hin hu₀ hv₀
      obtain ⟨hgrows, hrest⟩ := hin hu₀ hv₀
      have hsmall := hu.mp hgrows
      exact ⟨hsmall, fun g' a' hg' => (hv hsmall g' a' hg').mp (hrest g' a' hg')⟩
    · intro hin hu₀ hv₀
      obtain ⟨hsmall, hrest⟩ := hin hu₀ hv₀
      exact ⟨hu.mpr hsmall, fun g' a' hg' => (hv hsmall g' a' hg').mpr (hrest g' a' hg')⟩
  | removeEdge u v => exact Iff.rfl

/-! ## Whole runs -/

/-- A run from a small matrix, by induction on the calls. -/
theorem SmallCapacity.run_iff : ∀ {calls : List Call} {g : GraphImpl} {a : Allocator},
    SmallCapacity g → g.rep = .adjacencyMatrix → (∀ c ∈ calls, ∀ id ∈ c.ids, id < 2 ^ 30) →
      (RunInRange junk g a calls ↔ RunSmall junk g a calls) := by
  intro calls
  induction calls with
  | nil =>
    intro g a h _ _
    exact iff_of_true ((cellsInRange_iff h.pow).mpr h) trivial
  | cons c cs ih =>
    intro g a h hrep hids
    obtain ⟨hhead, htail⟩ := List.forall_mem_cons.mp hids
    have hcall := h.call_iff junk (a := a) hrep hhead
    have hrest : c.Small junk g a → ∀ g' a', c.run junk g a = some (g', a') →
        (RunInRange junk g' a' cs ↔ RunSmall junk g' a' cs) := fun hsmall g' a' hg' =>
      ih (h.run junk hsmall hg') ((h.pow.run junk hg').2.trans hrep) htail
    rw [RunInRange, RunSmall]
    constructor
    · rintro ⟨-, hin, hrun⟩
      have hsmall := hcall.mp hin
      exact ⟨hsmall, fun g' a' hg' => (hrest hsmall g' a' hg').mp (hrun g' a' hg')⟩
    · rintro ⟨hsmall, hrun⟩
      exact ⟨(cellsInRange_iff h.pow).mpr h, hcall.mpr hsmall,
        fun g' a' hg' => (hrest hsmall g' a' hg').mpr (hrun g' a' hg')⟩

/-- **The products of the matrix are in range exactly while it does not outgrow 32768 vertices.**
In a run with ids below `2 ^ 30`, the cells of all states and all growths are in range, and the
growths leave no cell without a value, exactly when every growth is small. -/
theorem matrix_in_range_iff {type : GraphType} {ts : TraversalStrategy} {ms : MinPathStrategy}
    {g₀ : GraphImpl} {a₀ : Allocator}
    (hcreate : GraphImpl.create junk type .adjacencyMatrix ts ms a = (some g₀, a₀))
    {calls : List Call} (hids : ∀ c ∈ calls, ∀ id ∈ c.ids, id < 2 ^ 30) :
    RunInRange junk g₀ a₀ calls ↔ RunSmall junk g₀ a₀ calls := by
  obtain rfl := create_eq_some junk (congrArg Prod.fst hcreate)
  exact SmallCapacity.run_iff junk ⟨3, le_refl 3, by norm_num, rfl⟩ rfl hids

theorem matrix_in_range_iff_edge :
    ∃ g₀, GraphImpl.create (fun _ => 0) .directed .adjacencyMatrix .bfs .dijkstra
        Allocator.always = (some g₀, Allocator.always) ∧
      (RunInRange (fun _ => 0) g₀ Allocator.always [.addEdge 3 70 1] ↔
        RunSmall (fun _ => 0) g₀ Allocator.always [.addEdge 3 70 1]) := by
  obtain ⟨g₀, hcreate⟩ : ∃ g₀, GraphImpl.create (fun _ => 0) .directed .adjacencyMatrix .bfs
      .dijkstra Allocator.always = (some g₀, Allocator.always) := ⟨_, rfl⟩
  exact ⟨g₀, hcreate, matrix_in_range_iff (fun _ => 0) hcreate (by simp [Call.ids])⟩

/-- The vertex 40000 of a new matrix: the bound of the fill loop is `2 ^ 32`, kept as 0, and the
cell of the vertices 0 and 100 keeps what `malloc` left in it. -/
theorem growth_out_of_range :
    ∃ g₀ g, GraphImpl.create (fun _ => 0) .directed .adjacencyMatrix .bfs .dijkstra
        Allocator.always = (some g₀, Allocator.always) ∧
      g₀.ensureCapacity (fun _ => 0) 40000 Allocator.always = some (g, Allocator.always) ∧
        g₀.vertexCapacity = 8 ∧ g.vertexCapacity = 65536 ∧ int32 (65536 * 65536) = 0 ∧
          g.adjMatrix (0 * 65536 + 100) ≠ ⊤ ∧
            ¬RunInRange (fun _ => 0) g₀ Allocator.always [.addVertex 40000] := by
  refine ⟨_, _, rfl, rfl, rfl, rfl, by decide, by decide +kernel, fun hrun => ?_⟩
  obtain ⟨-, hgrows, -⟩ := hrun
  obtain ⟨hsquare, -, -⟩ := hgrows _ _ rfl (by decide)
  exact absurd (pow_le_fifteen (k := 16) hsquare) (by norm_num)

end Graph

end OvaLib
