import OvaLib.Graph.Built

/-!
# Undirected graphs when allocations fail

In the list representation an undirected edge is two records in two lists, and either can be missing
when memory runs out. In the matrix representation it is two cells, and a growth beyond 32768
vertices squares the capacity past an `int`.

## The condition

`graph_adj_list_add_edge` adds the record of one direction and then that of the other. It looks at
no result. What it takes to keep the two lists in agreement is that the two new records share their
fate: both are written, or neither is. An edge that is there already has both records, which are
overwritten without an allocation, and a self loop has one record only. `RecordsAgree` says this of
the allocations that the two insertions make, in the order in which they make them.

For a matrix no allocation matters but those of a growth, and a growth fails as a whole. What
matters is the size it is asked for.

## How the proof goes

`Mirrored` is the invariant: the two records of every pair agree, or the two cells. It does not say
that the graph is what the calls describe, and with failures it is not. A call that meets the
condition keeps it; a call that does not may be one after which `has_edge` says yes in one direction
and no in the other.

`Records` describes the lists by a function of two vertices, so that what becomes of one record is a
statement about that function. The lists that are missing, because they could not be created, count
as lists without records.

## Scope

Whole runs, from a new graph, with any allocator. The condition is on each call in the state in
which it is made; it is what the run needs, and no single call can be judged without its state.

## Main results

* `addOneEdge_records` — what becomes of one record
* `Mirrored.run` — one call on a graph whose halves agree
* `undirected_symmetric` — every run in which the two records of a new edge share their fate
-/

namespace OvaLib

namespace Graph

open Foundation (Lists)
open GraphImpl (Edges)

/-! ## The condition

Defined on the state before the call and the allocator it is given. -/

/-- Whether a new edge record finds memory: for the list when there is none yet, for the record and
for the growth of the list. -/
def recordFits (adj : Option (ArrayList GraphEdge)) (a : Allocator) : Bool × Allocator :=
  let (adj, a) : Option (ArrayList GraphEdge) × Allocator :=
    match adj with
    | some adj => (some adj, a)
    | none => ArrayList.create 4 a
  match adj with
  | none => (false, a)
  | some adj =>
    let (e, a) := a.alloc
    if !e then (false, a)
    else
      let (room, a) := adj.ensureCapacity a
      (room.isSome, a)

/-- The two records of an edge that is new to the lists are both written or both not. -/
def RecordsAgree (g : GraphImpl) (u v : ℕ) (a : Allocator) : Prop :=
  g.rep = .adjacencyList → u ≠ v → g.adjListHasEdge u v = false →
    (recordFits (g.adjLists u) a).1 =
      (recordFits (g.adjLists v) (recordFits (g.adjLists u) a).2).1

/-- The matrix does not grow beyond the capacity whose square is an `int`: the vertex count that the
call requires, which is an `int` too, stays below it, or one of the three allocations fails. -/
def GrowthFits (g : GraphImpl) (id : ℤ) (a : Allocator) : Prop :=
  g.rep = .adjacencyMatrix → int32 (id + 1) ≤ 32768 ∨ ∃ k < 3, a.outcome k = false

/-- What a call needs to leave the two halves of every edge in agreement. -/
def CallOk (junk : ℤ → WithTop ℚ) (g : GraphImpl) (a : Allocator) : Call → Prop
  | .addVertex id => GrowthFits g id a
  | .addEdge u v _ =>
    0 ≤ u → 0 ≤ v → GrowthFits g u a ∧
      ∀ g₁ a₁, g.addVertex junk u a = some (g₁, a₁) → GrowthFits g₁ v a₁ ∧
        ∀ g₂ a₂, g₁.addVertex junk v a₁ = some (g₂, a₂) →
          g₂.hasVertex u = true → g₂.hasVertex v = true → RecordsAgree g₂ u.toNat v.toNat a₂
  | .removeEdge _ _ => True

/-- Every call of a run meets the condition, in the state in which it is made. -/
def CallsOk (junk : ℤ → WithTop ℚ) : GraphImpl → Allocator → List Call → Prop
  | _, _, [] => True
  | g, a, c :: cs =>
    CallOk junk g a c ∧ ∀ g' a', c.run junk g a = some (g', a') → CallsOk junk g' a' cs

/-! ## The records of a graph

The lists of a graph as one function, with a lemma for each operation on lists. -/

/-- The lists hold the records `R`. -/
structure Records (g : GraphImpl) (R : ℕ → ℕ → Option (WithTop ℚ)) : Prop where
  edges : ∀ u adj, g.adjLists u = some adj → Edges adj (R u)
  of_none : ∀ u v, g.adjLists u = none → R u v = none
  lt_capacity : ∀ u adj, g.adjLists u = some adj → u < g.vertexCapacity

/-- One record more, or rebound. -/
def bindRecord (R : ℕ → ℕ → Option (WithTop ℚ)) (u v : ℕ) (w : Option (WithTop ℚ)) :
    ℕ → ℕ → Option (WithTop ℚ) :=
  Function.update R u (Function.update (R u) v w)

section Records

variable {g : GraphImpl} {R : ℕ → ℕ → Option (WithTop ℚ)} {u v : ℕ}

theorem bindRecord_apply (R : ℕ → ℕ → Option (WithTop ℚ)) (u v x y : ℕ)
    (w : Option (WithTop ℚ)) :
    bindRecord R u v w x y = if x = u ∧ y = v then w else R x y := by
  rw [bindRecord]
  by_cases hx : x = u
  · subst hx
    rw [Function.update_self, Function.update_apply]
    simp
  · rw [Function.update_of_ne hx]
    simp [hx]

/-- A self loop is its own mirror image. -/
theorem bindRecord_self_symm (hsymm : ∀ x y, R x y = R y x) (u : ℕ) (w : Option (WithTop ℚ))
    (x y : ℕ) : bindRecord R u u w x y = bindRecord R u u w y x := by
  rw [bindRecord_apply, bindRecord_apply, hsymm]
  simp only [and_comm]

/-- Both records of an edge are mirror images. -/
theorem bindRecord_both_symm (hsymm : ∀ x y, R x y = R y x) (u v : ℕ) (w : Option (WithTop ℚ))
    (x y : ℕ) : bindRecord (bindRecord R u v w) v u w x y =
      bindRecord (bindRecord R u v w) v u w y x := by
  rw [bindRecord_apply, bindRecord_apply, bindRecord_apply, bindRecord_apply, hsymm x y]
  by_cases hxy : x = u ∧ y = v
  · simp [hxy]
  · by_cases hyx : x = v ∧ y = u
    · simp [hyx]
    · rw [if_neg hyx, if_neg hxy, if_neg fun hc => hxy hc.symm, if_neg fun hc => hyx hc.symm]

theorem Records.hasEdge (h : Records g R) (u v : ℕ) : g.adjListHasEdge u v = (R u v).isSome := by
  rw [GraphImpl.adjListHasEdge]
  cases hadj : g.adjLists u with
  | none => rw [h.of_none u v hadj]; rfl
  | some adj => exact GraphImpl.isSome_findEdge (h.edges u adj hadj)

theorem Records.getEdgeWeight (h : Records g R) (u v : ℕ) :
    g.adjListGetEdgeWeight u v = (R u v).getD ⊤ := by
  rw [GraphImpl.adjListGetEdgeWeight]
  cases hadj : g.adjLists u with
  | none => rw [h.of_none u v hadj]; rfl
  | some adj => exact GraphImpl.edgeWeight_eq (h.edges u adj hadj)

theorem setAdjList_adjLists (g : GraphImpl) (u : ℕ) (adj : ArrayList GraphEdge) :
    (g.setAdjList u adj).adjLists = Function.update g.adjLists u (some adj) := rfl

/-- The lists are replaced in one place. -/
theorem Records.replace (h : Records g R) (hu : u < g.vertexCapacity) {g' : GraphImpl}
    {o : Option (ArrayList GraphEdge)} {M : ℕ → Option (WithTop ℚ)}
    (hcap : g'.vertexCapacity = g.vertexCapacity)
    (hlists : g'.adjLists = Function.update g.adjLists u o) (ho : ∀ adj, o = some adj → Edges adj M)
    (hnone : o = none → ∀ y, M y = none) : Records g' (Function.update R u M) := by
  refine ⟨fun x adj hx => ?_, fun x y hx => ?_, fun x adj hx => ?_⟩
  · rw [hlists] at hx
    by_cases hxu : x = u
    · subst hxu
      rw [Function.update_self] at hx ⊢
      exact ho adj hx
    · rw [Function.update_of_ne hxu] at hx ⊢
      exact h.edges x adj hx
  · rw [hlists] at hx
    by_cases hxu : x = u
    · subst hxu
      rw [Function.update_self] at hx ⊢
      exact hnone hx y
    · rw [Function.update_of_ne hxu] at hx ⊢
      exact h.of_none x y hx
  · rw [hcap]
    by_cases hxu : x = u
    · exact hxu ▸ hu
    · rw [hlists, Function.update_of_ne hxu] at hx
      exact h.lt_capacity x adj hx

theorem Records.setAdjList (h : Records g R) (hu : u < g.vertexCapacity)
    {adj : ArrayList GraphEdge} {M : ℕ → Option (WithTop ℚ)} (hadj : Edges adj M) :
    Records (g.setAdjList u adj) (Function.update R u M) :=
  h.replace hu rfl (setAdjList_adjLists g u adj) (fun _ heq => Option.some.inj heq ▸ hadj) nofun

/-- A list that has just been created holds no records. -/
theorem Records.edges_create (h : Records g R) (hnone : g.adjLists u = none) {a : Allocator}
    {adj : ArrayList GraphEdge} (hcreate : (ArrayList.create 4 a).1 = some adj) :
    Edges adj (R u) := by
  have hrow : R u = fun _ => none := funext fun v => h.of_none u v hnone
  rw [hrow]
  show Lists _ _ adj.items _
  rw [ArrayList.items_of_create hcreate]
  exact Lists.nil

/-- A new list in an empty place changes no record. -/
theorem Records.newList (h : Records g R) (hu : u < g.vertexCapacity) {g' : GraphImpl}
    {a : Allocator} (hnone : g.adjLists u = none) (hcap : g'.vertexCapacity = g.vertexCapacity)
    (hlists : g'.adjLists = Function.update g.adjLists u (ArrayList.create 4 a).1) :
    Records g' R := by
  have hnew := h.replace hu hcap hlists (M := R u) (fun adj hadj => h.edges_create hnone hadj)
    fun _ y => h.of_none u y hnone
  rwa [Function.update_eq_self] at hnew

/-- An empty list is there, or is made when there is none. -/
theorem Records.ensureAdjList (h : Records g R) (hu : u < g.vertexCapacity) (a : Allocator) :
    let r := g.ensureAdjList u a
    Records r.2.1 R ∧ r.2.1.vertexCapacity = g.vertexCapacity ∧
      (∀ x, x ≠ u → r.2.1.adjLists x = g.adjLists x) ∧
      (∀ adj, r.1 = some adj → Edges adj (R u)) ∧
      (r.1, r.2.2) = (match g.adjLists u with
        | some adj => (some adj, a)
        | none => ArrayList.create 4 a) := by
  dsimp only
  rw [GraphImpl.ensureAdjList]
  cases hadj : g.adjLists u with
  | some adj =>
    refine ⟨h, rfl, fun _ _ => rfl, fun adj' hadj' => ?_, rfl⟩
    rw [← Option.some.inj hadj']
    exact h.edges u adj hadj
  | none =>
    exact ⟨h.newList hu hadj rfl rfl, rfl, fun x hx => Function.update_of_ne hx _ _,
      fun adj hcreate => h.edges_create hadj hcreate, rfl⟩

/-- An insertion at the end does it when the list has room or can grow. -/
theorem insert_at_end (adj : ArrayList GraphEdge) (e : GraphEdge) (a : Allocator) :
    (adj.insert e adj.size a).2.2 = (adj.ensureCapacity a).2 ∧
      ((adj.ensureCapacity a).1.isSome = true →
        (adj.insert e adj.size a).2.1.items = adj.items.insertIdx adj.items.length e) ∧
      ((adj.ensureCapacity a).1.isSome = false → (adj.insert e adj.size a).2.1 = adj) := by
  rw [ArrayList.insert]
  rw [if_neg (by simp [ArrayList.size])]
  rcases adj.ensureCapacity a with ⟨room, a'⟩
  cases room with
  | none => exact ⟨rfl, fun h => absurd h (by simp), fun _ => rfl⟩
  | some room => exact ⟨rfl, fun _ => rfl, fun h => absurd h (by simp)⟩

/-- **What becomes of one record**: it is rebound when it is there, and otherwise written exactly
when it finds memory. -/
theorem addOneEdge_records (h : Records g R) (hu : u < g.vertexCapacity) (v : ℕ)
    (w : WithTop ℚ) (a : Allocator) :
    let g' := (g.addOneEdge u v w a).1
    g'.vertexCapacity = g.vertexCapacity ∧ (∀ x, x ≠ u → g'.adjLists x = g.adjLists x) ∧
      ((R u v).isSome = true → Records g' (bindRecord R u v (some w))) ∧
      (R u v = none → (g.addOneEdge u v w a).2 = (recordFits (g.adjLists u) a).2 ∧
        Records g' (if (recordFits (g.adjLists u) a).1 then bindRecord R u v (some w) else R)) := by
  dsimp only
  obtain ⟨hrec, hcap, hframe, hedges, hlist⟩ := h.ensureAdjList hu a
  simp only [GraphImpl.addOneEdge, recordFits]
  rw [← hlist]
  rcases hensure : g.ensureAdjList u a with ⟨found, g₁, a₁⟩
  rw [hensure] at hrec hcap hframe hedges hlist
  dsimp only at hrec hcap hframe hedges hlist ⊢
  have hu₁ : u < g₁.vertexCapacity := hcap ▸ hu
  cases found with
  | none =>
    refine ⟨hcap, hframe, fun hsome => ?_, fun _ => ⟨rfl, by simpa using hrec⟩⟩
    cases hadj : g.adjLists u with
    | some adj =>
      rw [hadj] at hlist
      cases congrArg Prod.fst hlist
    | none =>
      rw [h.of_none u v hadj] at hsome
      cases hsome
  | some adj =>
    have hadj : Edges adj (R u) := hedges adj rfl
    dsimp only
    have hset : ∀ adj' x, x ≠ u → (g₁.setAdjList u adj').adjLists x = g.adjLists x := by
      intro adj' x hx
      rw [setAdjList_adjLists, Function.update_of_ne hx, hframe x hx]
    have hsame : Records (g₁.setAdjList u adj) R := by
      have hset := hrec.setAdjList hu₁ hadj
      rwa [Function.update_eq_self] at hset
    refine ⟨hcap, fun x hx => hset _ x hx, fun hsome => ?_, fun hnone => ?_⟩
    · rw [GraphImpl.writeEdge]
      cases hfind : GraphImpl.findEdge adj v with
      | none =>
        have hiff : (GraphImpl.findEdge adj v).isSome = _ := GraphImpl.isSome_findEdge hadj
        rw [hfind, hsome] at hiff
        cases hiff
      | some i =>
        obtain ⟨hi, hto⟩ := GraphImpl.findEdge_eq_some hfind
        have hwrite := GraphImpl.Edges.write hadj hi w
        rw [hto] at hwrite
        exact hrec.setAdjList hu₁ hwrite
    · rw [GraphImpl.writeEdge]
      cases hfind : GraphImpl.findEdge adj v with
      | some i =>
        have hiff : (GraphImpl.findEdge adj v).isSome = _ := GraphImpl.isSome_findEdge hadj
        rw [hfind, hnone] at hiff
        cases hiff
      | none =>
        dsimp only
        by_cases halloc : a₁.alloc.1 = true
        · obtain ⟨hafter, hdone, hleft⟩ := insert_at_end adj ⟨v, w⟩ a₁.alloc.2
          simp only [halloc, Bool.not_true, Bool.false_eq_true, if_false]
          refine ⟨hafter, ?_⟩
          cases hroom : (adj.ensureCapacity a₁.alloc.2).1.isSome with
          | false =>
            rw [hleft hroom]
            simpa using hsame
          | true =>
            have hins := GraphImpl.Edges.insert hadj (hdone hroom) hnone
            exact hrec.setAdjList hu₁ hins
        · rw [Bool.not_eq_true] at halloc
          simp only [halloc, Bool.not_false, if_true]
          exact ⟨trivial, by simpa using hsame⟩

theorem removeOneEdge_records (h : Records g R) (hu : u < g.vertexCapacity) (v : ℕ) :
    Records (g.removeOneEdge u v) (bindRecord R u v none) ∧
      (g.removeOneEdge u v).vertexCapacity = g.vertexCapacity := by
  rw [GraphImpl.removeOneEdge]
  cases hadj : g.adjLists u with
  | none =>
    refine ⟨?_, rfl⟩
    have hsame : bindRecord R u v none = R := by
      have hrow : Function.update (R u) v none = R u :=
        Function.update_eq_self_iff.mpr (h.of_none u v hadj).symm
      rw [bindRecord, hrow, Function.update_eq_self]
    rw [hsame]
    exact h
  | some adj =>
    exact ⟨h.setAdjList hu (GraphImpl.eraseEdge_edges v (h.edges u adj hadj)), rfl⟩

end Records

/-! ## The two halves of an edge

The step lemmas, one for each way in which a call can go. -/

/-- **What a run keeps** in which every call meets the condition: the two records of every edge
agree, or the two cells. -/
structure Mirrored (g : GraphImpl) : Prop where
  undirected : g.type = .undirected
  lists : g.rep = .adjacencyList → ∃ R, Records g R ∧ ∀ u v, R u v = R v u
  matrix : g.rep = .adjacencyMatrix → (∃ k, 3 ≤ k ∧ k ≤ 15 ∧ g.vertexCapacity = 2 ^ k) ∧
    ∀ u v, u < g.vertexCapacity → v < g.vertexCapacity →
      g.adjMatrix (g.cell u v) = g.adjMatrix (g.cell v u)

section Mirrored

variable {g g' : GraphImpl} {a a' : Allocator}

/-- A caller sees the same edge from both ends. -/
theorem Mirrored.symmetric (h : Mirrored g) (u v : ℤ) :
    g.hasEdge u v = g.hasEdge v u ∧ g.getEdgeWeight u v = g.getEdgeWeight v u := by
  simp only [GraphImpl.hasEdge, GraphImpl.getEdgeWeight]
  cases hu : g.hasVertex u with
  | false => simp
  | true =>
    cases hv : g.hasVertex v with
    | false => simp
    | true =>
      simp only [Bool.not_true, Bool.or_self, Bool.false_eq_true, if_false]
      cases hrep : g.rep with
      | adjacencyList =>
        obtain ⟨R, hR, hsymm⟩ := h.lists hrep
        dsimp only
        rw [hR.hasEdge, hR.hasEdge, hR.getEdgeWeight, hR.getEdgeWeight, hsymm]
        exact ⟨rfl, rfl⟩
      | adjacencyMatrix =>
        have hlt : ∀ x : ℤ, g.hasVertex x = true → x.toNat < g.vertexCapacity := by
          intro x hx
          rw [GraphImpl.hasVertex] at hx
          split at hx
          · cases hx
          · omega
        have hcell := (h.matrix hrep).2 u.toNat v.toNat (hlt u hu) (hlt v hv)
        dsimp only
        rw [GraphImpl.adjMatrixHasEdge, GraphImpl.adjMatrixGetEdgeWeight]
        rw [hcell]
        exact ⟨rfl, rfl⟩

/-- Only the vertices differ. -/
theorem Mirrored.of_sameEdges (h : Mirrored g) (htype : g'.type = g.type) (hrep : g'.rep = g.rep)
    (hcap : g'.vertexCapacity = g.vertexCapacity) (hlists : g'.adjLists = g.adjLists)
    (hmatrix : g'.adjMatrix = g.adjMatrix) : Mirrored g' where
  undirected := htype.trans h.undirected
  lists hlist := by
    obtain ⟨R, hR, hsymm⟩ := h.lists (hrep ▸ hlist)
    refine ⟨R, ⟨?_, ?_, ?_⟩, hsymm⟩
    · rw [hlists]
      exact hR.edges
    · rw [hlists]
      exact hR.of_none
    · rw [hlists, hcap]
      exact hR.lt_capacity
  matrix hmat := by
    obtain ⟨hk, hcells⟩ := h.matrix (hrep ▸ hmat)
    refine ⟨hcap ▸ hk, ?_⟩
    simp only [GraphImpl.cell] at hcells ⊢
    rw [hcap, hmatrix]
    exact hcells

/-- A growth moves every list and every row. -/
theorem Mirrored.grown (junk : ℤ → WithTop ℚ) (h : Mirrored g) {newCap : ℕ}
    (hle : g.vertexCapacity ≤ newCap)
    (hpow : g.rep = .adjacencyMatrix → ∃ k, 3 ≤ k ∧ k ≤ 15 ∧ newCap = 2 ^ k) :
    Mirrored (g.grown junk newCap) := by
  refine ⟨h.undirected, fun hlist => ?_, fun hmat => ?_⟩
  · have hrep : g.rep = .adjacencyList := hlist
    obtain ⟨R, hR, hsymm⟩ := h.lists hrep
    refine ⟨R, ⟨fun u adj hu => hR.edges u adj (GraphImpl.adjLists_of_grown junk hu),
      fun u v hu => ?_, fun u adj hu => ?_⟩, hsymm⟩
    · rw [GraphImpl.grown_adjLists junk hrep] at hu
      split at hu
      · exact hR.of_none u v hu
      · next hge =>
        cases hadj : g.adjLists u with
        | none => exact hR.of_none u v hadj
        | some adj => exact absurd (hR.lt_capacity u adj hadj) hge
    · exact (hR.lt_capacity u adj (GraphImpl.adjLists_of_grown junk hu)).trans_le hle
  · have hrep : g.rep = .adjacencyMatrix := hmat
    obtain ⟨k, hk3, hk15, rfl⟩ := hpow hrep
    have hcap : 2 ^ k ≤ 32768 := Nat.pow_le_pow_right (by norm_num) hk15 (n := 2)
    refine ⟨⟨k, hk3, hk15, rfl⟩, fun u v hu hv => ?_⟩
    have hold := (h.matrix hrep).2
    rw [GraphImpl.cell_eq hcap hu hv, GraphImpl.cell_eq hcap hv hu,
      GraphImpl.grown_adjMatrix junk hrep, GraphImpl.grown_vertexCapacity,
      GraphImpl.copyRows_apply junk hle hcap hu hv le_rfl,
      GraphImpl.copyRows_apply junk hle hcap hv hu le_rfl]
    by_cases hboth : u < g.vertexCapacity ∧ v < g.vertexCapacity
    · have hsame := hold u v hboth.1 hboth.2
      rw [GraphImpl.cell_eq (hle.trans hcap) hboth.1 hboth.2,
        GraphImpl.cell_eq (hle.trans hcap) hboth.2 hboth.1] at hsame
      rw [if_pos hboth, if_pos hboth.symm, hsame]
    · rw [if_neg hboth, if_neg fun hswap => hboth hswap.symm]

theorem Mirrored.ensureCapacity (junk : ℤ → WithTop ℚ) (h : Mirrored g) (hwf : WellFormed g)
    {id : ℤ} (hfits : GrowthFits g id a) (hg' : g.ensureCapacity junk id a = some (g', a')) :
    Mirrored g' := by
  rcases GraphImpl.ensureCapacity_cases junk hg' with ⟨rfl, -⟩ |
    ⟨newCap, hnonneg, hgt, hloop, rfl⟩
  · exact h
  · rw [if_pos hwf.capacity_pos] at hloop
    obtain ⟨hreq, hmax⟩ := doubleUntil_bounds (by exact_mod_cast hwf.capacity_le) hloop
    rcases GraphImpl.reallocate_cases junk g newCap.toNat a with ⟨-, hsame⟩ | ⟨hall, hgrown⟩
    · rwa [hsame]
    · rw [hgrown]
      refine h.grown junk (by omega) fun hrep => ?_
      have hid : int32 (id + 1) ≤ 32768 := (hfits hrep).resolve_right fun ⟨k, hk, hfail⟩ => by
        rw [hall k hk] at hfail
        cases hfail
      obtain ⟨k, hk3, hk15, heq⟩ := (h.matrix hrep).1
      obtain ⟨j, hkj, hj15, -, hj⟩ := GraphImpl.doubleUntil_pow (b := 15) (by norm_num)
        (show int32 (id + 1) ≤ 2 ^ 15 by norm_num; exact hid) hk15 (show 15 - k < 64 by omega)
      rw [heq, Nat.cast_pow, Nat.cast_ofNat, hj] at hloop
      refine ⟨j, by omega, hj15, ?_⟩
      rw [← Option.some.inj hloop, ← Nat.cast_ofNat, ← Nat.cast_pow, Int.toNat_natCast]

theorem Mirrored.enterVertex (h : Mirrored g) {v : ℕ} (hv : v < g.vertexCapacity)
    (a : Allocator) : Mirrored (g.enterVertex v a).1 := by
  rw [GraphImpl.enterVertex]
  dsimp only
  split
  · exact h
  · split
    · next hlist =>
      -- a list is made for the new vertex
      obtain ⟨R, hR, hsymm⟩ := h.lists hlist.1
      have hnone : g.adjLists v = none := Option.isNone_iff_eq_none.mp hlist.2
      refine ⟨h.undirected, fun _ => ⟨R, hR.newList hv hnone rfl rfl, hsymm⟩, fun hmat => ?_⟩
      rw [show g.rep = .adjacencyMatrix from hmat] at hlist
      cases hlist.1
    · exact h.of_sameEdges rfl rfl rfl rfl rfl

theorem Mirrored.addVertex (junk : ℤ → WithTop ℚ) (h : Mirrored g) (hwf : WellFormed g) {id : ℤ}
    (hfits : GrowthFits g id a) (hg' : g.addVertex junk id a = some (g', a')) : Mirrored g' := by
  rcases GraphImpl.addVertex_cases junk hg' with ⟨rfl, -⟩ |
    ⟨g₁, a₁, -, hg₁, rfl | ⟨hlt, -, rfl⟩⟩
  · exact h
  · exact h.ensureCapacity junk hwf hfits hg₁
  · exact (h.ensureCapacity junk hwf hfits hg₁).enterVertex hlt a₁

theorem setCells_cell (u v : ℕ) (w : WithTop ℚ) (x y : ℕ) :
    (g.setCells u v w).cell x y = g.cell x y := by
  obtain ⟨-, -, hcap, -, -, -⟩ := GraphImpl.edgesOnly_setCells g u v w
  rw [GraphImpl.cell, GraphImpl.cell, hcap]

/-- In an undirected graph both cells of an edge are written. -/
theorem setCells_adjMatrix (htype : g.type = .undirected) (u v : ℕ) (w : WithTop ℚ) :
    (g.setCells u v w).adjMatrix =
      fun i => if i = g.cell v u ∨ i = g.cell u v then w else g.adjMatrix i := by
  funext i
  rw [GraphImpl.setCells]
  by_cases huv : u = v
  · subst huv
    rw [if_neg fun hboth => hboth.2 rfl, GraphImpl.setCell_adjMatrix, Function.update_apply]
    simp
  · have hcell : (g.setCell u v w).cell v u = g.cell v u := by
      rw [GraphImpl.cell, GraphImpl.cell, GraphImpl.setCell_vertexCapacity]
    rw [if_pos ⟨htype, huv⟩, GraphImpl.setCell_adjMatrix, GraphImpl.setCell_adjMatrix, hcell,
      Function.update_apply, Function.update_apply]
    by_cases hi : i = g.cell v u
    · simp [hi]
    · simp [hi]

/-- The two cells of an edge are written. -/
theorem Mirrored.setCells (h : Mirrored g) (hrep : g.rep = .adjacencyMatrix) {u v : ℕ}
    (hu : u < g.vertexCapacity) (hv : v < g.vertexCapacity) (w : WithTop ℚ) :
    Mirrored (g.setCells u v w) := by
  obtain ⟨⟨k, hk3, hk15, heq⟩, hcells⟩ := h.matrix hrep
  have hcap : g.vertexCapacity ≤ 32768 := by
    rw [heq]
    exact Nat.pow_le_pow_right (by norm_num) hk15 (n := 2)
  have hcell : ∀ {x y : ℕ}, x < g.vertexCapacity → y < g.vertexCapacity →
      (∀ {x' y' : ℕ}, x' < g.vertexCapacity → y' < g.vertexCapacity →
        g.cell x y = g.cell x' y' → x = x' ∧ y = y') := by
    intro x y hx hy x' y' hx' hy' hsame
    rw [GraphImpl.cell_eq hcap hx hy, GraphImpl.cell_eq hcap hx' hy'] at hsame
    exact GraphImpl.index_inj hy hy' (by exact_mod_cast hsame)
  -- a cell is one of the two exactly when its mirror image is
  have hswap : ∀ {x y : ℕ}, x < g.vertexCapacity → y < g.vertexCapacity →
      g.cell x y = g.cell v u ∨ g.cell x y = g.cell u v →
        g.cell y x = g.cell v u ∨ g.cell y x = g.cell u v := by
    rintro x y hx hy (hsame | hsame)
    · obtain ⟨rfl, rfl⟩ := hcell hx hy hv hu hsame
      exact .inr rfl
    · obtain ⟨rfl, rfl⟩ := hcell hx hy hu hv hsame
      exact .inl rfl
  obtain ⟨htype', hrep', hcap', -, -, -⟩ := GraphImpl.edgesOnly_setCells g u v w
  refine ⟨htype'.trans h.undirected, fun hlist => ?_,
    fun _ => ⟨⟨k, hk3, hk15, hcap'.trans heq⟩, fun x y hx hy => ?_⟩⟩
  · rw [hrep', hrep] at hlist
    cases hlist
  · rw [hcap'] at hx hy
    rw [setCells_cell, setCells_cell, setCells_adjMatrix h.undirected]
    dsimp only
    by_cases hhit : g.cell x y = g.cell v u ∨ g.cell x y = g.cell u v
    · rw [if_pos hhit, if_pos (hswap hx hy hhit)]
    · rw [if_neg hhit, if_neg (mt (hswap hy hx) hhit)]
      exact hcells x y hx hy

theorem Mirrored.of_records (h : Mirrored g) (hrep : g.rep = .adjacencyList)
    {R : ℕ → ℕ → Option (WithTop ℚ)} (htype : g'.type = g.type) (hrep' : g'.rep = g.rep)
    (hR : Records g' R) (hsymm : ∀ x y, R x y = R y x) : Mirrored g' := by
  refine ⟨htype.trans h.undirected, fun _ => ⟨R, hR, hsymm⟩, fun hmat => ?_⟩
  rw [hrep', hrep] at hmat
  cases hmat

/-- **Both records of an edge**, when they share their fate. -/
theorem Mirrored.adjListAddEdge (h : Mirrored g) (hrep : g.rep = .adjacencyList) {u v : ℕ}
    (hu : u < g.vertexCapacity) (hv : v < g.vertexCapacity) (w : WithTop ℚ)
    (hagree : RecordsAgree g u v a) : Mirrored (g.adjListAddEdge u v w a).1 := by
  obtain ⟨R, hR, hsymm⟩ := h.lists hrep
  obtain ⟨hcap₁, hframe₁, hbound₁, hnew₁⟩ := addOneEdge_records hR hu v w a
  obtain ⟨htype₁, hrep₁, -, -, -, -⟩ := GraphImpl.edgesOnly_addOneEdge g u v w a
  rw [GraphImpl.adjListAddEdge]
  rcases hfirst : g.addOneEdge u v w a with ⟨g₁, a₁⟩
  rw [hfirst] at hcap₁ hframe₁ hbound₁ hnew₁ htype₁ hrep₁
  dsimp only at hcap₁ hframe₁ hbound₁ hnew₁ htype₁ hrep₁ ⊢
  by_cases huv : u = v
  · -- a self loop is one record
    subst huv
    rw [if_neg fun hboth => hboth.2 rfl]
    cases hrec : R u u with
    | some w₀ =>
      exact h.of_records hrep htype₁ hrep₁ (hbound₁ (by rw [hrec]; rfl))
        (bindRecord_self_symm hsymm u (some w))
    | none =>
      refine h.of_records hrep htype₁ hrep₁ (hnew₁ hrec).2 fun x y => ?_
      split
      · exact bindRecord_self_symm hsymm u (some w) x y
      · exact hsymm x y
  · rw [if_pos ⟨htype₁.trans h.undirected, huv⟩]
    obtain ⟨htype₂, hrep₂, -, -, -, -⟩ := GraphImpl.edgesOnly_addOneEdge g₁ v u w a₁
    have hv₁ : v < g₁.vertexCapacity := hcap₁ ▸ hv
    have hlist : g₁.adjLists v = g.adjLists v := hframe₁ v (Ne.symm huv)
    have hboth := bindRecord_both_symm hsymm u v (some w)
    cases hrec : R u v with
    | some w₀ =>
      have hrec' : (bindRecord R u v (some w) v u).isSome = true := by
        rw [bindRecord_apply, if_neg fun hc => huv hc.1.symm, hsymm, hrec]
        rfl
      have hR₁ := hbound₁ (by rw [hrec]; rfl)
      obtain ⟨-, -, hbound₂, -⟩ := addOneEdge_records hR₁ hv₁ u w a₁
      exact h.of_records hrep (htype₂.trans htype₁) (hrep₂.trans hrep₁) (hbound₂ hrec') hboth
    | none =>
      obtain ⟨ha₁, hR₁⟩ := hnew₁ hrec
      have hfate := hagree hrep huv (by rw [hR.hasEdge, hrec]; rfl)
      rw [← ha₁, ← hlist] at hfate
      cases hfits : (recordFits (g.adjLists u) a).1 with
      | true =>
        rw [hfits, if_pos rfl] at hR₁
        have hnone : bindRecord R u v (some w) v u = none := by
          rw [bindRecord_apply, if_neg fun hc => huv hc.1.symm, hsymm, hrec]
        obtain ⟨-, -, -, hnew₂⟩ := addOneEdge_records hR₁ hv₁ u w a₁
        have hR₂ := (hnew₂ hnone).2
        rw [← hfate, hfits, if_pos rfl] at hR₂
        exact h.of_records hrep (htype₂.trans htype₁) (hrep₂.trans hrep₁) hR₂ hboth
      | false =>
        rw [hfits] at hR₁
        simp only [Bool.false_eq_true, if_false] at hR₁
        obtain ⟨-, -, -, hnew₂⟩ := addOneEdge_records hR₁ hv₁ u w a₁
        have hR₂ := (hnew₂ (by rw [hsymm, hrec])).2
        rw [← hfate, hfits] at hR₂
        simp only [Bool.false_eq_true, if_false] at hR₂
        exact h.of_records hrep (htype₂.trans htype₁) (hrep₂.trans hrep₁) hR₂ hsymm

/-- Both records of an edge are taken out. -/
theorem Mirrored.adjListRemoveEdge (h : Mirrored g) (hrep : g.rep = .adjacencyList) {u v : ℕ}
    (hu : u < g.vertexCapacity) (hv : v < g.vertexCapacity) :
    Mirrored (g.adjListRemoveEdge u v) := by
  obtain ⟨R, hR, hsymm⟩ := h.lists hrep
  obtain ⟨hR₁, hcap₁⟩ := removeOneEdge_records hR hu v
  obtain ⟨htype₁, hrep₁, -, -, -, -⟩ := GraphImpl.edgesOnly_removeOneEdge g u v
  unfold GraphImpl.adjListRemoveEdge
  dsimp only
  split
  · obtain ⟨hR₂, -⟩ := removeOneEdge_records hR₁ (hcap₁ ▸ hv) u
    obtain ⟨htype₂, hrep₂, -, -, -, -⟩ :=
      GraphImpl.edgesOnly_removeOneEdge (g.removeOneEdge u v) v u
    exact h.of_records hrep (htype₂.trans htype₁) (hrep₂.trans hrep₁) hR₂
      (bindRecord_both_symm hsymm u v none)
  · next hone =>
    have huv : u = v := by
      by_contra hne
      exact hone ⟨htype₁.trans h.undirected, hne⟩
    subst huv
    exact h.of_records hrep htype₁ hrep₁ hR₁ (bindRecord_self_symm hsymm u none)

theorem hasVertex_lt {v : ℤ} (h : g.hasVertex v = true) : 0 ≤ v ∧ v.toNat < g.vertexCapacity := by
  rw [GraphImpl.hasVertex] at h
  split at h
  · cases h
  · omega

/-- **One call** that meets the condition. -/
theorem Mirrored.run (junk : ℤ → WithTop ℚ) (h : Mirrored g) (hwf : WellFormed g) {c : Call}
    (hok : CallOk junk g a c) (hg' : c.run junk g a = some (g', a')) : Mirrored g' := by
  cases c with
  | addVertex id => exact h.addVertex junk hwf hok hg'
  | removeEdge u v =>
    obtain ⟨rfl, -⟩ := Prod.mk.inj (Option.some.inj hg')
    rw [GraphImpl.removeEdge]
    split
    · exact h
    · next hboth =>
      simp only [Bool.or_eq_true, Bool.not_eq_true', not_or, Bool.not_eq_false] at hboth
      split
      · next hrep =>
        exact h.adjListRemoveEdge hrep (hasVertex_lt hboth.1).2 (hasVertex_lt hboth.2).2
      · next hrep => exact h.setCells hrep (hasVertex_lt hboth.1).2 (hasVertex_lt hboth.2).2 ⊤
  | addEdge u v w =>
    rcases GraphImpl.addEdge_cases junk hg' with ⟨rfl, -⟩ |
      ⟨g₁, a₁, g₂, a₂, hu₀, hv₀, hg₁, hg₂, hrest⟩
    · exact h
    · obtain ⟨hfits₁, hok'⟩ := hok hu₀ hv₀
      obtain ⟨hfits₂, hagree⟩ := hok' g₁ a₁ hg₁
      have h₁ := h.addVertex junk hwf hfits₁ hg₁
      have h₂ := h₁.addVertex junk (hwf.addVertex junk hg₁) hfits₂ hg₂
      rcases hrest with rfl | ⟨hu, hv, ⟨hrep, rfl⟩ | ⟨hrep, rfl⟩⟩
      · exact h₂
      · exact h₂.adjListAddEdge hrep (hasVertex_lt hu).2 (hasVertex_lt hv).2 w
          (hagree g₂ a₂ hg₂ hu hv)
      · exact h₂.setCells hrep (hasVertex_lt hu).2 (hasVertex_lt hv).2 w

/-- A run, by induction on the calls. -/
theorem Mirrored.runCalls (junk : ℤ → WithTop ℚ) : ∀ {calls : List Call} {g : GraphImpl}
    {a : Allocator}, Mirrored g → WellFormed g → CallsOk junk g a calls →
      Graph.runCalls junk g a calls = some (g', a') → Mirrored g' := by
  intro calls
  induction calls with
  | nil =>
    intro g a h _ _ hrun
    obtain ⟨rfl, -⟩ := Prod.mk.inj (Option.some.inj hrun)
    exact h
  | cons c cs ih =>
    intro g a h hwf hok hrun
    rw [Graph.runCalls] at hrun
    split at hrun
    · cases hrun
    · next g₁ a₁ hstep =>
      exact ih (h.run junk hwf hok.1 hstep) (hwf.run junk hstep) (hok.2 g₁ a₁ hstep) hrun

theorem mirrored_create (junk : ℤ → WithTop ℚ) {rep : GraphRepresentation}
    {ts : TraversalStrategy} {ms : MinPathStrategy}
    (h : (GraphImpl.create junk .undirected rep ts ms a).1 = some g) : Mirrored g := by
  obtain rfl := create_eq_some junk h
  refine ⟨rfl, fun _ => ⟨fun _ _ => none, ⟨?_, fun _ _ _ => rfl, ?_⟩, fun _ _ => rfl⟩,
    fun _ => ⟨⟨3, le_refl _, by norm_num, rfl⟩, fun u v hu hv => ?_⟩⟩
  · exact fun u adj hu => absurd hu (by simp)
  · exact fun u adj hu => absurd hu (by simp)
  · rw [GraphImpl.cell_eq (show 8 ≤ 32768 by norm_num) hu hv,
      GraphImpl.cell_eq (show 8 ≤ 32768 by norm_num) hv hu]
    dsimp only at hu hv ⊢
    rw [GraphImpl.newAdjMatrix_apply junk (by norm_num) hu hv,
      GraphImpl.newAdjMatrix_apply junk (by norm_num) hv hu]

end Mirrored

/-! ## Whole runs -/

/-- **Undirected edges are seen from both ends** in every state that a run reaches whose calls all
meet the condition. -/
theorem undirected_symmetric (junk : ℤ → WithTop ℚ) (rep : GraphRepresentation)
    (ts : TraversalStrategy) (ms : MinPathStrategy) (a : Allocator) (calls : List Call)
    {g₀ g : GraphImpl} {a₀ a' : Allocator}
    (hcreate : GraphImpl.create junk .undirected rep ts ms a = (some g₀, a₀))
    (hok : CallsOk junk g₀ a₀ calls) (hrun : runCalls junk g₀ a₀ calls = some (g, a')) (u v : ℤ) :
    g.hasEdge u v = g.hasEdge v u ∧ g.getEdgeWeight u v = g.getEdgeWeight v u := by
  have h₀ : Mirrored g₀ := mirrored_create junk (a := a) (by rw [hcreate])
  have hwf₀ : WellFormed g₀ := create_wellFormed junk (a := a) (by rw [hcreate])
  exact (h₀.runCalls junk hwf₀ hok hrun).symmetric u v

theorem undirected_symmetric_edge :
    ∃ g, build (fun _ => 0) .undirected .adjacencyList .bfs .dijkstra .always [.addEdge 0 1 5] =
        some (g, Allocator.always) ∧
      g.hasEdge 0 1 = g.hasEdge 1 0 ∧ g.getEdgeWeight 0 1 = g.getEdgeWeight 1 0 := by
  refine ⟨_, rfl, ?_⟩
  refine undirected_symmetric (fun _ => 0) .adjacencyList .bfs .dijkstra .always [.addEdge 0 1 5]
    rfl ⟨fun _ _ => ⟨fun h => ?_, fun g₁ a₁ h₁ => ?_⟩, fun _ _ _ => trivial⟩ rfl 0 1
  · cases h
  · obtain ⟨rfl, rfl⟩ := Prod.mk.inj (Option.some.inj h₁)
    refine ⟨fun h => ?_, fun g₂ a₂ h₂ _ _ _ _ _ => ?_⟩
    · cases h
    · obtain ⟨rfl, rfl⟩ := Prod.mk.inj (Option.some.inj h₂)
      rfl

/-- The second record of a new edge does not find memory. -/
theorem undirected_asymmetric :
    (build (fun _ => 0) .undirected .adjacencyList .bfs .dijkstra ⟨fun n => n ≠ 14⟩
        [.addEdge 0 1 5]).map
      (fun r => (r.1.hasEdge 0 1, r.1.hasEdge 1 0, r.1.getEdgeWeight 1 0)) =
        some (true, false, ⊤) := by
  decide +kernel

end Graph

end OvaLib
