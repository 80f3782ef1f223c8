import OvaLib.Graph.Built
import OvaLib.Graph.Growth

/-!
# The doubling loop of the graph

`graph_ensure_capacity` doubles an `int` until it reaches the id and one more. The capacity of a
graph is a power of two of at most `2 ^ 30`, so an id from there on sends the loop through `INT_MIN`
to 0, where it stays. For `INT_MAX` the loop is not entered: one more is negative.

## How the proof goes

The loop of the model computes with wrapping products, as the compiled code does where overflow is
not trapped. `DoublesTo` is the same loop as a relation, with the side condition that every product
is an `int`; a run that satisfies it is a run of the model, and one that overflows does not.

`PowCapacity` is kept by every call whatever the allocations do, because a growth that fails leaves
the capacity alone. From a power of two the loop is easily followed: it either meets what is
required at a power of at most `2 ^ 30`, or it goes on to `2 ^ 31`, which is `INT_MIN`, and from
there to 0 for ever.

## Scope

All ids that an `int` can hold, from 0 on; negative ids are turned away by every public function
before the loop. The condition is on the id alone and not on the graph, so one theorem covers the
states of all runs. `add_edge` ensures the capacity for both of its ids, the second one in the state
that the first has left.

## Main results

* `Built.powCapacity` — the capacity of every graph
* `doubleUntil_endless` — the loop does not end beyond `2 ^ 30`, whatever the fuel
* `ensures_iff`, `call_ensures_iff` — for which ids the loop ends without overflow
-/

namespace OvaLib

namespace Graph

open GraphImpl

/-! ## The loop

Two readings of the loop: the relation without overflow, and the function that wraps. -/

/-- The doubling loop runs to its end and all its products are `int`s. -/
inductive DoublesTo (required : ℤ) : ℤ → ℤ → Prop
  | done {newCap : ℤ} : required ≤ newCap → DoublesTo required newCap newCap
  | double {newCap result : ℤ} : newCap < required → InInt (newCap * 2) →
      DoublesTo required (newCap * 2) result → DoublesTo required newCap result

/-- Without overflow the wrap-around has no effect, so the loop returns the same result. -/
theorem DoublesTo.returns {required newCap result : ℤ} (h : DoublesTo required newCap result) :
    ∃ fuel, GraphImpl.doubleUntil fuel newCap required = some result := by
  induction h with
  | done hge => exact ⟨1, by rw [GraphImpl.doubleUntil, if_neg (by omega)]⟩
  | double hlt hint _ ih =>
    obtain ⟨fuel, hfuel⟩ := ih
    exact ⟨fuel + 1, by rw [GraphImpl.doubleUntil, if_pos hlt, hint.int32_eq, hfuel]⟩

/-- From a power of two on, up to `2 ^ 30`. By induction on the number of doublings left. -/
theorem doublesTo_pow {required : ℤ} (hreq : required ≤ 2 ^ 30) {k : ℕ} (hk : k ≤ 30) :
    ∃ newCap, DoublesTo required (2 ^ k) newCap := by
  induction hn : 30 - k generalizing k with
  | zero =>
    obtain rfl : k = 30 := by omega
    exact ⟨_, .done hreq⟩
  | succ n ih =>
    by_cases hge : required ≤ 2 ^ k
    · exact ⟨_, .done hge⟩
    · have hpow : (2 : ℤ) ^ k * 2 = 2 ^ (k + 1) := (pow_succ 2 k).symm
      have hle : (2 : ℤ) ^ (k + 1) ≤ 2 ^ 30 := pow_le_pow_right₀ (by norm_num) (by omega)
      have hpos : (0 : ℤ) < 2 ^ (k + 1) := pow_pos (by norm_num) _
      obtain ⟨newCap, hnew⟩ := @ih (k + 1) (by omega) (by omega)
      refine ⟨newCap, .double (not_le.mp hge) ?_ (hpow ▸ hnew)⟩
      rw [hpow]
      exact inInt_of_nonneg (by omega) (by rw [intMax_cast]; omega)

/-- A power of two that is an `int` is at most `2 ^ 30`. -/
theorem pow_le_thirty {k : ℕ} (h : InInt ((2 : ℤ) ^ k)) : k ≤ 30 := by
  by_contra hk
  have hle : (2 : ℤ) ^ 31 ≤ 2 ^ k := pow_le_pow_right₀ (by norm_num) (by omega)
  have hmax := h.2
  rw [intMax_cast] at hmax
  omega

/-- What the loop reaches without overflow is at most `2 ^ 30`. -/
theorem DoublesTo.required_le {required newCap result : ℤ} (h : DoublesTo required newCap result)
    {k : ℕ} (hk : k ≤ 30) (hpow : newCap = 2 ^ k) : required ≤ 2 ^ 30 := by
  induction h generalizing k with
  | done hge =>
    rw [hpow] at hge
    exact hge.trans (pow_le_pow_right₀ (by norm_num) hk)
  | double hlt hint _ ih =>
    have hnext : (2 : ℤ) ^ k * 2 = 2 ^ (k + 1) := (pow_succ 2 k).symm
    rw [hpow, hnext] at hint
    exact ih (pow_le_thirty hint) (hpow ▸ hnext)

/-- The values of the loop: the powers of two, `INT_MIN` and 0. -/
def Doubled (p : ℤ) : Prop := p = 0 ∨ p = -2147483648 ∨ ∃ k ≤ 30, p = 2 ^ k

theorem Doubled.le {p : ℤ} (h : Doubled p) : p ≤ 2 ^ 30 := by
  obtain rfl | rfl | ⟨k, hk, rfl⟩ := h
  · norm_num
  · norm_num
  · exact pow_le_pow_right₀ (by norm_num) hk

theorem Doubled.double {p : ℤ} (h : Doubled p) : Doubled (int32 (p * 2)) := by
  obtain rfl | rfl | ⟨k, hk, rfl⟩ := h
  · exact .inl (by decide)
  · exact .inl (by decide)
  · rcases Nat.lt_or_ge k 30 with hlt | hge
    · have hpow : (2 : ℤ) ^ k * 2 = 2 ^ (k + 1) := (pow_succ 2 k).symm
      have hle : (2 : ℤ) ^ (k + 1) ≤ 2 ^ 30 := pow_le_pow_right₀ (by norm_num) (by omega)
      have hpos : (0 : ℤ) < 2 ^ (k + 1) := pow_pos (by norm_num) _
      refine .inr (.inr ⟨k + 1, by omega, ?_⟩)
      rw [hpow]
      exact int32_eq (by omega) (by omega)
    · obtain rfl : k = 30 := by omega
      exact .inr (.inl (by decide))

/-- **The loop does not end** for a size beyond `2 ^ 30`, whatever the fuel. -/
theorem doubleUntil_endless {required : ℤ} (hreq : 2 ^ 30 < required) (fuel : ℕ) {p : ℤ}
    (hp : Doubled p) : GraphImpl.doubleUntil fuel p required = none := by
  induction fuel generalizing p with
  | zero => rfl
  | succ fuel ih =>
    have hlt : p < required := hp.le.trans_lt hreq
    rw [GraphImpl.doubleUntil, if_pos hlt, ih hp.double]

/-! ## The capacity -/

/-- The capacity is a power of two of at most `2 ^ 30`. -/
def PowCapacity (g : GraphImpl) : Prop := ∃ k, 3 ≤ k ∧ k ≤ 30 ∧ g.vertexCapacity = 2 ^ k

/-- The arrays are as large as before, in the same representation. -/
def SameArrays (g g' : GraphImpl) : Prop :=
  g'.vertexCapacity = g.vertexCapacity ∧ g'.rep = g.rep

variable {g g' : GraphImpl} (junk : ℤ → WithTop ℚ) {a a' : Allocator} {id : ℤ}

theorem SameArrays.refl (g : GraphImpl) : SameArrays g g := ⟨rfl, rfl⟩

theorem sameArrays_enterVertex (g : GraphImpl) (v : ℕ) (a : Allocator) :
    SameArrays g (g.enterVertex v a).1 := by
  rw [enterVertex]
  dsimp only
  split
  · exact .refl g
  · split <;> exact ⟨rfl, rfl⟩

theorem sameArrays_of_edgesOnly (h : EdgesOnly g g') : SameArrays g g' := ⟨h.capacity, h.rep⟩

theorem PowCapacity.pos (h : PowCapacity g) : 0 < g.vertexCapacity := by
  obtain ⟨k, -, -, hk⟩ := h
  exact hk ▸ Nat.two_pow_pos k

/-- Where the loop ends, it ends at a power of two. -/
theorem PowCapacity.doubleUntil (h : PowCapacity g) {required newCap : ℤ}
    (hloop : GraphImpl.doubleUntil 64 g.vertexCapacity required = some newCap) :
    required ≤ 2 ^ 30 ∧ ∃ j, 3 ≤ j ∧ j ≤ 30 ∧ newCap = ((2 ^ j : ℕ) : ℤ) ∧ required ≤ newCap := by
  obtain ⟨k, hk3, hk30, hcap⟩ := h
  rw [hcap] at hloop
  push_cast at hloop
  by_cases hreq : required ≤ 2 ^ 30
  · obtain ⟨j, hkj, hj30, hle, hj⟩ := GraphImpl.doubleUntil_pow (le_refl 30) hreq hk30
      (show 30 - k < 64 by omega)
    rw [hj] at hloop
    obtain rfl := Option.some.inj hloop
    exact ⟨hreq, j, hk3.trans hkj, hj30, by push_cast; rfl, hle⟩
  · rw [doubleUntil_endless (not_le.mp hreq) 64 (.inr (.inr ⟨k, hk30, rfl⟩))] at hloop
    exact absurd hloop (by simp)

/-- A growth leads to a power of two as well. -/
theorem PowCapacity.ensureCapacity_cases (h : PowCapacity g)
    (hg' : g.ensureCapacity junk id a = some (g', a')) :
    (g' = g ∧ (0 ≤ id → int32 (id + 1) ≤ g.vertexCapacity)) ∨
      ∃ j, 3 ≤ j ∧ j ≤ 30 ∧ 0 ≤ id ∧ g.vertexCapacity < int32 (id + 1) ∧
        int32 (id + 1) ≤ ((2 ^ j : ℕ) : ℤ) ∧ GraphImpl.doubleUntil 64 g.vertexCapacity
          (int32 (id + 1)) = some ((2 ^ j : ℕ) : ℤ) ∧ g' = (g.reallocate junk (2 ^ j) a).1 := by
  rcases GraphImpl.ensureCapacity_cases junk hg' with hsame | ⟨newCap, hid, hgt, hloop, rfl⟩
  · exact .inl hsame
  · rw [if_pos h.pos] at hloop
    obtain ⟨-, j, hj3, hj30, rfl, hreach⟩ := h.doubleUntil hloop
    exact .inr ⟨j, hj3, hj30, hid, hgt, hreach, hloop, by rw [Int.toNat_natCast]⟩

theorem PowCapacity.ensureCapacity (h : PowCapacity g)
    (hg' : g.ensureCapacity junk id a = some (g', a')) : PowCapacity g' ∧ g'.rep = g.rep := by
  rcases h.ensureCapacity_cases junk hg' with ⟨rfl, -⟩ | ⟨j, hj3, hj30, -, -, -, -, rfl⟩
  · exact ⟨h, rfl⟩
  · rcases reallocate_cases junk g (2 ^ j) a with ⟨-, hsame⟩ | ⟨-, hgrown⟩
    · rw [hsame]
      exact ⟨h, rfl⟩
    · rw [hgrown]
      exact ⟨⟨j, hj3, hj30, rfl⟩, rfl⟩

theorem PowCapacity.of_sameArrays (h : PowCapacity g) (hsame : SameArrays g g') :
    PowCapacity g' := by
  obtain ⟨k, hk3, hk30, hk⟩ := h
  exact ⟨k, hk3, hk30, hsame.1.trans hk⟩

/-- Entering a vertex is a growth at most, as far as the arrays are concerned. -/
theorem addVertex_arrays (h : g.addVertex junk id a = some (g', a')) :
    g' = g ∨ ∃ g₁ a₁, g.ensureCapacity junk id a = some (g₁, a₁) ∧ SameArrays g₁ g' := by
  rcases addVertex_cases junk h with ⟨rfl, -⟩ | ⟨g₁, a₁, -, hg₁, rfl | ⟨-, -, rfl⟩⟩
  · exact .inl rfl
  · exact .inr ⟨g', a₁, hg₁, .refl g'⟩
  · exact .inr ⟨g₁, a₁, hg₁, sameArrays_enterVertex g₁ _ a₁⟩

theorem PowCapacity.addVertex (h : PowCapacity g) (hg' : g.addVertex junk id a = some (g', a')) :
    PowCapacity g' ∧ g'.rep = g.rep := by
  rcases addVertex_arrays junk hg' with rfl | ⟨g₁, a₁, hensure, hsame⟩
  · exact ⟨h, rfl⟩
  · obtain ⟨h₁, hrep⟩ := h.ensureCapacity junk hensure
    exact ⟨h₁.of_sameArrays hsame, hsame.2.trans hrep⟩

/-- Adding an edge enters both vertices, as far as the arrays are concerned. -/
theorem addEdge_arrays {u v : ℤ} {w : WithTop ℚ} (h : g.addEdge junk u v w a = some (g', a')) :
    (g' = g ∧ (u < 0 ∨ v < 0)) ∨ ∃ g₁ a₁ g₂ a₂, 0 ≤ u ∧ 0 ≤ v ∧
      g.addVertex junk u a = some (g₁, a₁) ∧ g₁.addVertex junk v a₁ = some (g₂, a₂) ∧
        SameArrays g₂ g' := by
  rcases addEdge_cases junk h with hsame | ⟨g₁, a₁, g₂, a₂, hu, hv, hg₁, hg₂, hrest⟩
  · exact .inl hsame
  · refine .inr ⟨g₁, a₁, g₂, a₂, hu, hv, hg₁, hg₂, ?_⟩
    rcases hrest with rfl | ⟨-, -, ⟨-, rfl⟩ | ⟨-, rfl⟩⟩
    · exact .refl g'
    · exact sameArrays_of_edgesOnly (edgesOnly_adjListAddEdge g₂ _ _ w a₂)
    · exact sameArrays_of_edgesOnly (edgesOnly_setCells g₂ _ _ w)

/-- One call. -/
theorem PowCapacity.run (h : PowCapacity g) {c : Call} (hg' : c.run junk g a = some (g', a')) :
    PowCapacity g' ∧ g'.rep = g.rep := by
  cases c with
  | addVertex id => exact h.addVertex junk hg'
  | addEdge u v w =>
    rcases addEdge_arrays junk hg' with ⟨rfl, -⟩ | ⟨g₁, a₁, g₂, a₂, -, -, hg₁, hg₂, hsame⟩
    · exact ⟨h, rfl⟩
    · obtain ⟨h₁, hrep₁⟩ := h.addVertex junk hg₁
      obtain ⟨h₂, hrep₂⟩ := h₁.addVertex junk hg₂
      exact ⟨h₂.of_sameArrays hsame, hsame.2.trans (hrep₂.trans hrep₁)⟩
  | removeEdge u v =>
    obtain ⟨rfl, -⟩ := Prod.mk.inj (Option.some.inj hg')
    have hsame := sameArrays_of_edgesOnly (edgesOnly_removeEdge g u v)
    exact ⟨h.of_sameArrays hsame, hsame.2⟩

theorem powCapacity_create {type : GraphType} {rep : GraphRepresentation}
    {ts : TraversalStrategy} {ms : MinPathStrategy}
    (h : (GraphImpl.create junk type rep ts ms a).1 = some g) : PowCapacity g := by
  obtain rfl := create_eq_some junk h
  exact ⟨3, le_refl 3, by norm_num, rfl⟩

/-- The capacity of every graph is a power of two of at most `2 ^ 30`. -/
theorem Built.powCapacity (h : Built g) : PowCapacity g := by
  obtain ⟨junk, type, rep, ts, ms, a, a', calls, hbuild⟩ := h
  exact build_induction junk (fun g a => powCapacity_create junk)
    (fun g a c g' a' hg hrun => (hg.run junk hrun).1) hbuild

/-! ## For which ids the loop ends

The id of largest value is an exception that the arithmetic makes: the sum wraps to `INT_MIN`, which
no capacity is below, so nothing happens and the vertex is not entered. -/

/-- What a caller of `graph_ensure_capacity` relies on: the loop is not entered, or ends without
overflow, and the call returns with a capacity that exceeds the id or has not changed. -/
structure Ensures (g : GraphImpl) (id : ℤ) : Prop where
  loop : int32 (id + 1) ≤ g.vertexCapacity ∨ ∃ newCap, DoublesTo (int32 (id + 1))
    (if g.vertexCapacity > 0 then g.vertexCapacity else 8) newCap
  returns : ∀ junk a, ∃ g' a', g.ensureCapacity junk id a = some (g', a') ∧
    (id < g'.vertexCapacity ∨ g'.vertexCapacity = g.vertexCapacity)

/-- Where the loop ends, the call returns. -/
theorem PowCapacity.ensureCapacity_returns (h : PowCapacity g) (hsmall : int32 (id + 1) ≤ 2 ^ 30)
    (a : Allocator) : ∃ g' a', g.ensureCapacity junk id a = some (g', a') := by
  obtain ⟨k, hk3, hk30, hcap⟩ := h
  rw [GraphImpl.ensureCapacity]
  split
  · exact ⟨_, _, rfl⟩
  · dsimp only
    split
    · exact ⟨_, _, rfl⟩
    · obtain ⟨j, -, -, -, hj⟩ := GraphImpl.doubleUntil_pow (le_refl 30) hsmall hk30
        (show 30 - k < 64 by omega)
      have hstart : (if g.vertexCapacity > 0 then (g.vertexCapacity : ℤ) else 8) = 2 ^ k := by
        rw [if_pos (hcap ▸ Nat.two_pow_pos k), hcap]
        push_cast
        rfl
      rw [hstart, hj]
      exact ⟨_, _, rfl⟩

/-- **For which ids the loop ends.** -/
theorem PowCapacity.ensures_iff (h : PowCapacity g) (hlow : 0 ≤ id) (hmax : id ≤ intMax) :
    Ensures g id ↔ id < 2 ^ 30 ∨ id = intMax := by
  have hint := intMax_cast
  have hstart : (if g.vertexCapacity > 0 then (g.vertexCapacity : ℤ) else 8) = g.vertexCapacity :=
    if_pos h.pos
  constructor
  · intro hens
    by_contra hnot
    obtain ⟨hge, hne⟩ := not_or.mp hnot
    have hreq : int32 (id + 1) = id + 1 := int32_eq (by omega) (by omega)
    obtain ⟨k, -, hk30, hcap⟩ := h
    have hcast : (g.vertexCapacity : ℤ) = 2 ^ k := by
      rw [hcap]
      push_cast
      rfl
    have hle : (2 : ℤ) ^ k ≤ 2 ^ 30 := pow_le_pow_right₀ (by norm_num) hk30
    rcases hens.loop with hsmall | ⟨newCap, hloop⟩
    · rw [hreq, hcast] at hsmall
      omega
    · rw [hstart] at hloop
      have hsmall := hloop.required_le hk30 hcast
      rw [hreq] at hsmall
      omega
  · intro hid
    have hsmall : int32 (id + 1) ≤ 2 ^ 30 := by
      rcases hid with hlt | rfl
      · rw [int32_eq (by omega) (by omega)]
        omega
      · decide
    refine ⟨?_, fun junk a => ?_⟩
    · rw [hstart]
      obtain ⟨k, -, hk30, hcap⟩ := h
      rw [hcap]
      push_cast
      exact .inr (doublesTo_pow hsmall hk30)
    · obtain ⟨g', a', hg'⟩ := h.ensureCapacity_returns junk hsmall a
      refine ⟨g', a', hg', ?_⟩
      rcases h.ensureCapacity_cases junk hg' with ⟨rfl, -⟩ | ⟨j, -, -, -, hgt, hreach, -, rfl⟩
      · exact .inr rfl
      · -- the loop was entered, so the id is not the largest one
        have hlt : id < 2 ^ 30 := by
          rcases hid with hlt | rfl
          · exact hlt
          · have hwrap : int32 (intMax + 1) = -2147483648 := by decide
            omega
        rw [int32_eq (by omega) (by omega)] at hreach
        rcases reallocate_cases junk g (2 ^ j) a with ⟨-, hsame⟩ | ⟨-, hgrown⟩
        · exact .inr (by rw [hsame])
        · refine .inl ?_
          rw [hgrown]
          show id < ((2 ^ j : ℕ) : ℤ)
          omega

/-- The ids that a call passes on. -/
def Call.ids : Call → List ℤ
  | .addVertex id => [id]
  | .addEdge u v _ => [u, v]
  | .removeEdge _ _ => []

/-- Every `graph_ensure_capacity` of a call does what its caller relies on. Adding an edge enters
the second vertex into the graph that entering the first one leaves. -/
def Call.Ensures (junk : ℤ → WithTop ℚ) (g : GraphImpl) (a : Allocator) : Call → Prop
  | .addVertex id => Graph.Ensures g id
  | .addEdge u v _ =>
    Graph.Ensures g u ∧ ∀ g' a', g.addVertex junk u a = some (g', a') → Graph.Ensures g' v
  | .removeEdge _ _ => True

/-- A vertex is entered, or not, where the growth for it returns. -/
theorem Ensures.addVertex (h : Ensures g id) (a : Allocator) :
    ∃ g' a', g.addVertex junk id a = some (g', a') := by
  obtain ⟨g₁, a₁, hensure, -⟩ := h.returns junk a
  rw [GraphImpl.addVertex]
  split
  · exact ⟨_, _, rfl⟩
  · rw [hensure]
    dsimp only
    split <;> exact ⟨_, _, rfl⟩

/-- **The doubling loop ends without overflow exactly for the ids below `2 ^ 30`**, and is not
entered for `INT_MAX`: in every graph, for every id passed to `add_vertex` and `add_edge`. -/
theorem call_ensures_iff (h : Built g) (a : Allocator) (c : Call)
    (hids : ∀ id ∈ c.ids, 0 ≤ id ∧ id ≤ intMax) :
    c.Ensures junk g a ↔ ∀ id ∈ c.ids, id < 2 ^ 30 ∨ id = intMax := by
  have hpow := h.powCapacity
  cases c with
  | addVertex id =>
    obtain ⟨hlow, hmax⟩ := hids id List.mem_cons_self
    rw [Call.Ensures, hpow.ensures_iff hlow hmax, Call.ids, List.forall_mem_singleton]
  | addEdge u v w =>
    obtain ⟨hlow, hmax⟩ := hids u List.mem_cons_self
    obtain ⟨hlow', hmax'⟩ := hids v (List.mem_cons_of_mem _ List.mem_cons_self)
    have hsecond : ∀ g' a', g.addVertex junk u a = some (g', a') →
        (Graph.Ensures g' v ↔ v < 2 ^ 30 ∨ v = intMax) := fun g' a' hg' =>
      (hpow.addVertex junk hg').1.ensures_iff hlow' hmax'
    rw [Call.Ensures, Call.ids, List.forall_mem_cons, List.forall_mem_singleton]
    constructor
    · rintro ⟨hu, hv⟩
      obtain ⟨g', a', hg'⟩ := hu.addVertex junk a
      exact ⟨(hpow.ensures_iff hlow hmax).mp hu, (hsecond g' a' hg').mp (hv g' a' hg')⟩
    · rintro ⟨hu, hv⟩
      exact ⟨(hpow.ensures_iff hlow hmax).mpr hu, fun g' a' hg' => (hsecond g' a' hg').mpr hv⟩
  | removeEdge u v => exact iff_of_true trivial fun id hid => absurd hid List.not_mem_nil

theorem call_ensures_iff_edge :
    ∃ g, Built g ∧ ((Call.addEdge 3 70 1).Ensures (fun _ => 0) g Allocator.always ↔
      ∀ id ∈ (Call.addEdge 3 70 1).ids, id < 2 ^ 30 ∨ id = intMax) := by
  obtain ⟨⟨g, a'⟩, hbuild⟩ : ∃ r, build (fun _ => 0) .directed .adjacencyList .bfs .dijkstra
      Allocator.always [] = some r := ⟨_, rfl⟩
  have hbuilt : Built g := ⟨_, _, _, _, _, _, _, _, hbuild⟩
  exact ⟨g, hbuilt, call_ensures_iff (fun _ => 0) hbuilt Allocator.always (.addEdge 3 70 1)
    (by rw [Call.ids, intMax_cast]; decide)⟩

/-- The vertex `2 ^ 30` of a new graph: the loop does not end, whatever the fuel. -/
theorem addVertex_endless :
    ∃ g, Built g ∧ (∀ fuel, GraphImpl.doubleUntil fuel g.vertexCapacity (int32 (2 ^ 30 + 1)) = none)
      ∧ ¬(Call.addVertex (2 ^ 30)).Ensures (fun _ => 0) g Allocator.always := by
  obtain ⟨⟨g, a'⟩, hbuild⟩ : ∃ r, build (fun _ => 0) .directed .adjacencyList .bfs .dijkstra
      Allocator.always [] = some r := ⟨_, rfl⟩
  have hbuilt : Built g := ⟨_, _, _, _, _, _, _, _, hbuild⟩
  have hpow := hbuilt.powCapacity
  refine ⟨g, hbuilt, fun fuel => ?_, fun hens => ?_⟩
  · obtain ⟨k, -, hk30, hcap⟩ := hpow
    refine doubleUntil_endless (by decide) fuel (.inr (.inr ⟨k, hk30, ?_⟩))
    rw [hcap]
    push_cast
    rfl
  · have hid : (2 : ℤ) ^ 30 ≤ intMax := by rw [intMax_cast]; norm_num
    rcases (hpow.ensures_iff (by norm_num) hid).mp hens with hlt | heq
    · exact absurd hlt (lt_irrefl _)
    · rw [intMax_cast] at heq
      exact absurd heq (by norm_num)

end Graph

end OvaLib
