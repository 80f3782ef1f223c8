import OvaLib.Foundation.Comparator
import OvaLib.Heap.FibonacciShape

/-!
# Consolidation

`consolidate` walks once over the ring of roots. The roots it has passed and kept stand in `A` under
their degrees; a root that meets another of its degree is linked with it, and the survivor goes on
with one child more. The ring is read as the roots to come followed by the ones kept, so the walk is
an induction on the roots to come, and what is linked away never was among them.

## How the proof goes

Three loops, three invariants. The first counts the roots and changes nothing.

The second goes as many turns as there were roots at the beginning, although it makes the ring
shorter. That is right because a turn begins by reading the next root, before anything is linked,
and because what a turn links away is the present root or one that was passed. `Registered` ties the
table to the ring: each kept root stands under its degree, and each entry is a kept root. The inner
loop is an induction on the degrees that are left, as each link raises the degree of the survivor by
one and frees the entry that was met.

The third loop takes the roots out of the table and builds a new ring of them, with the left and
right fields overwritten, so the old ring is of no use to it; what it needs is that the table has
every root exactly once.

## Scope

Payloads that are not `NULL`. A root with a `NULL` payload is passed over and gets into no ring,
which another module is about.

## Main results

* `mergeRoots_spec` — one root meets those in `A`
* `consolidateRoots_spec` — the whole walk
* `collectRoots_spec` — the new ring of roots, and its minimum
* `consolidate_spec`
-/

namespace OvaLib

namespace Heap

open Foundation

variable {α : Type*} {cmp : Option α → Option α → ℤ} {data : Addr → Option α}

/-! ## Payloads that are not `NULL` -/

theorem payload_self (hc : IsComparator fun a b => cmp (some a) (some b)) {p : Option α}
    (hp : ∃ v, p = some v) : cmp p p ≤ 0 := by
  obtain ⟨v, rfl⟩ := hp
  exact (hc.self v).le

theorem payload_trans (hc : IsComparator fun a b => cmp (some a) (some b)) {p q r : Option α}
    (hp : ∃ v, p = some v) (hq : ∃ v, q = some v) (hr : ∃ v, r = some v) (hpq : cmp p q ≤ 0)
    (hqr : cmp q r ≤ 0) : cmp p r ≤ 0 := by
  obtain ⟨u, rfl⟩ := hp
  obtain ⟨v, rfl⟩ := hq
  obtain ⟨w, rfl⟩ := hr
  exact hc.le_trans hpq hqr

theorem payload_le_of_not_lt (hc : IsComparator fun a b => cmp (some a) (some b)) {p q : Option α}
    (hp : ∃ v, p = some v) (hq : ∃ v, q = some v) (hpq : ¬cmp p q < 0) : cmp q p ≤ 0 := by
  obtain ⟨u, rfl⟩ := hp
  obtain ⟨v, rfl⟩ := hq
  exact hc.le_of_nonneg (not_lt.mp hpq)

namespace FibNodes

variable {m : FibNodes} {R : Option Addr → List Addr} {nodes : Finset Addr}

/-- No child's payload compares below its parent's. -/
def Ordered (cmp : Option α → Option α → ℤ) (data : Addr → Option α)
    (R : Option Addr → List Addr) : Prop :=
  ∀ {a b}, b ∈ R (some a) → cmp (data a) (data b) ≤ 0

/-- **What `consolidate` keeps**: the shape, that the forest is thin, and the heap order. Which
nodes are roots is what it changes. -/
structure Tidy (cmp : Option α → Option α → ℤ) (data : Addr → Option α) (m : FibNodes)
    (R : Option Addr → List Addr) (nodes : Finset Addr) : Prop where
  /-- The pointers are those of a forest. -/
  shape : Shape m R nodes
  /-- No node has lost more children than its mark allows. -/
  markThin : MarkThin m R fun _ => 0
  ordered : Ordered cmp data R

/-- The ring of roots may be read differently, in a memory that differs in the rings only. -/
theorem Tidy.rerootOf (h : Tidy cmp data m R nodes) {m' : FibNodes} {l : List Addr}
    (hl : l.Perm (R none)) (hring : ∀ o, IsRing m'.toDll (Function.update R none l o))
    (hparent : m'.parent = m.parent) (hchild : m'.child = m.child) (hdegree : m'.degree = m.degree)
    (hmark : m'.mark = m.mark) : Tidy cmp data m' (Function.update R none l) nodes := by
  have hkeep : ∀ a, Function.update R none l (some a) = R (some a) :=
    fun a => Function.update_of_ne (by simp) _ _
  refine ⟨⟨h.shape.forest.permRoots hl, hring, fun {o b} hb => ?_, fun a ha => ?_,
    fun a ha => ?_⟩, fun a i b hi => ?_, fun {a b} hb => ?_⟩
  · rw [hparent]
    refine h.shape.parent ?_
    cases o with
    | none =>
      rw [Function.update_self] at hb
      exact hl.mem_iff.mp hb
    | some a => rwa [hkeep] at hb
  · rw [hchild, hkeep]
    exact h.shape.child a ha
  · rw [hdegree, hkeep]
    exact h.shape.degree a ha
  · rw [hdegree, hmark]
    rw [hkeep] at hi
    exact h.markThin a i b hi
  · rw [hkeep] at hb
    exact h.ordered hb

theorem Tidy.reroot (h : Tidy cmp data m R nodes) {l : List Addr} (hl : l.Perm (R none))
    (hring : IsRing m.toDll l) : Tidy cmp data m (Function.update R none l) nodes := by
  refine h.rerootOf hl (fun o => ?_) rfl rfl rfl rfl
  cases o with
  | none => rwa [Function.update_self]
  | some a =>
    rw [Function.update_of_ne (by simp)]
    exact h.shape.ring _

/-- `A` holds the roots satisfying `P`, each under its degree. So no two of these have the same
degree. -/
def Registered (m : FibNodes) (A : ℕ → Option Addr) (P : Addr → Prop) : Prop :=
  ∀ d a, A d = some a ↔ P a ∧ m.degree a = d

/-! ## One root

The root that is linked away goes under the one with the smaller payload, or under the current one
when they compare equal. -/

/-- Linking two roots of the same degree in the order of their payloads. -/
theorem Tidy.link (h : Tidy cmp data m R nodes) {x y : Addr} (hx : x ∈ R none) (hy : y ∈ R none)
    (hxy : x ≠ y) (hdeg : m.degree x = m.degree y) (hle : cmp (data x) (data y) ≤ 0) :
    Tidy cmp data (m.fibNodeLink y x) (linked R y x) nodes where
  shape := fibNodeLink_shape h.shape hx hy hxy
  markThin := fibNodeLink_markThin h.shape h.markThin hx hy hxy hdeg
  ordered := fun {a b} hb => by
    by_cases hax : a = x
    · subst hax
      rw [linked_self] at hb
      rcases List.mem_append.mp hb with hb | hb
      · exact h.ordered hb
      · rwa [List.mem_singleton.mp hb]
    · rw [linked_of_ne R hax] at hb
      exact h.ordered hb

/-- The two roots `x` and `y` in the order in which `consolidate` links them: the one whose payload
compares above the other's becomes the child, and of equals the one that was in the table. -/
structure LinkOrder (cmp : Option α → Option α → ℤ) (data : Addr → Option α) (x y x₁ y₁ : Addr) :
    Prop where
  pair_eq : (if cmp (data x) (data y) > 0 then (y, x) else (x, y)) = (x₁, y₁)
  same : (x₁ = x ∧ y₁ = y) ∨ (x₁ = y ∧ y₁ = x)
  le : cmp (data x₁) (data y₁) ≤ 0

theorem exists_linkOrder (h : IsComparator fun a b => cmp (some a) (some b)) {x y : Addr}
    (hx : ∃ v, data x = some v) (hy : ∃ v, data y = some v) :
    ∃ x₁ y₁, LinkOrder cmp data x y x₁ y₁ := by
  by_cases hgt : cmp (data x) (data y) > 0
  · exact ⟨y, x, if_pos hgt, .inr ⟨rfl, rfl⟩, payload_le_of_not_lt h hx hy hgt.not_gt⟩
  · exact ⟨x, y, if_neg hgt, .inl ⟨rfl, rfl⟩, not_lt.mp hgt⟩

/-- The table after the current root `x` met `y`: neither of them is in it. -/
theorem Registered.link {A : ℕ → Option Addr} {T : List Addr} (hndT : T.Nodup) {x y x₁ y₁ : Addr}
    (hA : Registered m A fun a => a ∈ T ∧ a ≠ x) (hAd : A (m.degree x) = some y)
    (hsame : (x₁ = x ∧ y₁ = y) ∨ (x₁ = y ∧ y₁ = x)) :
    Registered (m.fibNodeLink y₁ x₁) (Function.update A (m.degree x) none)
      fun a => a ∈ T.erase y₁ ∧ a ≠ x₁ := by
  obtain ⟨-, hdeg⟩ := (hA _ _).mp hAd
  have hdx : m.degree x₁ = m.degree x := by
    rcases hsame with ⟨rfl, rfl⟩ | ⟨rfl, rfl⟩
    · rfl
    · exact hdeg
  have hboth : ∀ a, (a ≠ x₁ ∧ a ≠ y₁) ↔ (a ≠ x ∧ a ≠ y) := by
    rcases hsame with ⟨rfl, rfl⟩ | ⟨rfl, rfl⟩
    · exact fun a => Iff.rfl
    · exact fun a => and_comm
  intro e a
  show _ ↔ (a ∈ T.erase y₁ ∧ a ≠ x₁) ∧ (m.fibNodeLink y₁ x₁).degree a = e
  rw [hndT.mem_erase_iff]
  by_cases hax : a = x₁
  · -- the survivor is nowhere in the table
    subst hax
    refine iff_of_false (fun hmem => ?_) fun hmem => hmem.1.2 rfl
    by_cases he : e = m.degree x
    · rw [he, Function.update_self] at hmem
      cases hmem
    · rw [Function.update_of_ne he] at hmem
      exact he (((hA _ _).mp hmem).2.symm.trans hdx)
  · rw [fibNodeLink_degree, Function.update_of_ne hax]
    by_cases he : e = m.degree x
    · -- only `y` was in the table under this degree
      subst he
      rw [Function.update_self]
      refine iff_of_false nofun ?_
      rintro ⟨⟨⟨hay₁, haT⟩, -⟩, hdega⟩
      obtain ⟨hax', hay'⟩ := (hboth a).mp ⟨hax, hay₁⟩
      have hAa := (hA _ _).mpr ⟨⟨haT, hax'⟩, hdega⟩
      rw [hAd] at hAa
      exact hay' (Option.some.inj hAa).symm
    · rw [Function.update_of_ne he, hA e a]
      constructor
      · rintro ⟨⟨haT, hax'⟩, hdega⟩
        have hay' : a ≠ y := by
          rintro rfl
          exact he (hdega.symm.trans hdeg)
        exact ⟨⟨⟨((hboth a).mpr ⟨hax', hay'⟩).2, haT⟩, hax⟩, hdega⟩
      · rintro ⟨⟨⟨hay₁, haT⟩, -⟩, hdega⟩
        exact ⟨⟨haT, ((hboth a).mp ⟨hax, hay₁⟩).1⟩, hdega⟩

/-- The roots after the inner loop: those to come, and those kept, the current one among them. Each
kept root is in the table, except the current one, whose degree has no entry. -/
structure Merged (cmp : Option α → Option α → ℤ) (data : Addr → Option α) (nodes : Finset Addr)
    (todo : List Addr) (m' : FibNodes) (A' : ℕ → Option Addr) (x' : Addr) (d' : ℕ)
    (R' : Option Addr → List Addr) (T' : List Addr) : Prop where
  tidy : Tidy cmp data m' R' nodes
  roots : R' none = todo ++ T'
  mem : x' ∈ T'
  degree : m'.degree x' = d'
  /-- The place where the current root goes is free. -/
  vacant : A' d' = none
  /-- The table has the kept roots, apart from the current one. -/
  registered : Registered m' A' fun a => a ∈ T' ∧ a ≠ x'

/-- **One root meets those in `A`**, by induction on the degrees left. Each link raises the degree
of the current root, and no node reaches the size of the table. -/
theorem mergeRoots_spec (h : IsComparator fun a b => cmp (some a) (some b))
    (hdata : ∀ a ∈ nodes, ∃ v, data a = some v) (hcard : nodes.card ≤ intMax) (todo : List Addr)
    (left : ℕ) {A : ℕ → Option Addr} {x : Addr} {T : List Addr} (ht : Tidy cmp data m R nodes)
    (hroots : R none = todo ++ T) (hx : x ∈ T) (hleft : m.degree x + left = maxDegree)
    (hA : Registered m A fun a => a ∈ T ∧ a ≠ x) :
    ∃ m' A' x' d' R' T', mergeRoots cmp data left m A x = (m', A', x', d') ∧
      Merged cmp data nodes todo m' A' x' d' R' T' := by
  induction left generalizing m R A x T with
  | zero =>
    have hxroot : x ∈ R none := hroots ▸ List.mem_append_right _ hx
    have hlt := ht.shape.degree_lt ht.markThin hcard (ht.shape.forest.mem hxroot)
    omega
  | succ left ih =>
    have hd : maxDegree - (left + 1) = m.degree x := by omega
    rw [mergeRoots, hd]
    cases hAd : A (m.degree x) with
    | none =>
      exact ⟨m, A, x, m.degree x, R, T, rfl, ht, hroots, hx, rfl, hAd, hA⟩
    | some y =>
      obtain ⟨⟨hy, hyx⟩, hdeg⟩ := (hA _ _).mp hAd
      have hxroot : x ∈ R none := hroots ▸ List.mem_append_right _ hx
      have hyroot : y ∈ R none := hroots ▸ List.mem_append_right _ hy
      have hdatay := hdata y (ht.shape.forest.mem hyroot)
      obtain ⟨x₁, y₁, horder⟩ := exists_linkOrder h (hdata x (ht.shape.forest.mem hxroot)) hdatay
      obtain ⟨hx₁, hy₁, hne, hdeg₁, hdx⟩ :
          x₁ ∈ T ∧ y₁ ∈ T ∧ x₁ ≠ y₁ ∧ m.degree x₁ = m.degree y₁ ∧ m.degree x₁ = m.degree x := by
        rcases horder.same with ⟨rfl, rfl⟩ | ⟨rfl, rfl⟩
        · exact ⟨hx, hy, hyx.symm, hdeg.symm, rfl⟩
        · exact ⟨hy, hx, hyx, hdeg, hdeg⟩
      have hx₁root : x₁ ∈ R none := hroots ▸ List.mem_append_right _ hx₁
      have hy₁root : y₁ ∈ R none := hroots ▸ List.mem_append_right _ hy₁
      have hnd : (todo ++ T).Nodup := hroots ▸ ht.shape.forest.nodup none
      have hy₁todo : y₁ ∉ todo := fun hmem => (List.nodup_append.mp hnd).2.2 _ hmem _ hy₁ rfl
      have hndT : T.Nodup := (List.nodup_append.mp hnd).2.1
      have hroots₁ : linked R y₁ x₁ none = todo ++ T.erase y₁ := by
        rw [linked_none, hroots, List.erase_append_right _ hy₁todo]
      have hleft₁ : (m.fibNodeLink y₁ x₁).degree x₁ + left = maxDegree := by
        rw [fibNodeLink_degree, Function.update_self]
        omega
      obtain ⟨m', A', x', d', R', T', hrun, hspec⟩ := ih
        (ht.link hx₁root hy₁root hne hdeg₁ horder.le) hroots₁
        (hndT.mem_erase_iff.mpr ⟨hne, hx₁⟩) hleft₁ (hA.link hndT hAd horder.same)
      refine ⟨m', A', x', d', R', T', ?_, hspec⟩
      obtain ⟨w, hw⟩ := hdatay
      have hnull : ¬data y = none := by simp [hw]
      simp only [if_neg hnull, horder.pair_eq]
      exact hrun

/-! ## The walk

Each turn reads one root and leaves the table complete for one more. -/

/-- The roots after the walk, every one of them in `A`. -/
structure Walked (cmp : Option α → Option α → ℤ) (data : Addr → Option α) (nodes : Finset Addr)
    (m' : FibNodes) (A' : ℕ → Option Addr) (R' : Option Addr → List Addr) : Prop where
  tidy : Tidy cmp data m' R' nodes
  registered : Registered m' A' fun a => a ∈ R' none

/-- **One turn of the walk**: the root `w` meets those in `A`, and one of them is put there. The
next root has been read before, and is not among those that the turn may link away. -/
theorem walkTurn_spec (h : IsComparator fun a b => cmp (some a) (some b))
    (hdata : ∀ a ∈ nodes, ∃ v, data a = some v) (hcard : nodes.card ≤ intMax) {todo : List Addr}
    {A : ℕ → Option Addr} {S : List Addr} {w : Addr} (ht : Tidy cmp data m R nodes)
    (hroots : R none = w :: (todo ++ S)) (hA : Registered m A fun a => a ∈ S) :
    ∃ m₁ A₁ x₁ d₁ R₁ T₁, mergeRoots cmp data (maxDegree - m.degree w) m A w = (m₁, A₁, x₁, d₁) ∧
      d₁ < maxDegree ∧ Tidy cmp data m₁ R₁ nodes ∧ R₁ none = todo ++ T₁ ∧
      Registered m₁ (Function.update A₁ d₁ (some x₁)) (fun a => a ∈ T₁) ∧
      ∀ a ∈ todo.head?, m.right w = a := by
  have hxroot : w ∈ R none := hroots ▸ List.mem_cons_self
  have hnd : (w :: (todo ++ S)).Nodup := hroots ▸ ht.shape.forest.nodup none
  have hring : IsRing m.toDll (w :: (todo ++ S)) := hroots ▸ ht.shape.ring none
  -- read the ring with the current root at its end
  have hperm : (todo ++ (S ++ [w])).Perm (R none) := by
    rw [hroots, ← List.append_assoc]
    exact List.perm_append_comm
  have hring' : IsRing m.toDll (todo ++ (S ++ [w])) := by
    rw [← List.append_assoc]
    exact IsRing.rotate (s := [w]) hring
  have hA' : Registered m A fun a => a ∈ S ++ [w] ∧ a ≠ w := by
    intro d a
    rw [hA d a]
    show a ∈ S ∧ _ ↔ (a ∈ S ++ [w] ∧ a ≠ w) ∧ _
    have hwS : w ∉ S := fun hmem =>
      (List.nodup_cons.mp hnd).1 (List.mem_append_right _ hmem)
    rw [List.mem_append, List.mem_singleton]
    refine and_congr_left fun _ => ⟨fun haS => ⟨.inl haS, fun heq => hwS (heq ▸ haS)⟩, ?_⟩
    rintro ⟨haS | haw, hne⟩
    · exact haS
    · exact absurd haw hne
  have hdeg := ht.shape.degree_lt ht.markThin hcard (ht.shape.forest.mem hxroot)
  obtain ⟨m₁, A₁, x₁, d₁, R₁, T₁, hmerge, hspec⟩ := mergeRoots_spec h hdata hcard todo
    (maxDegree - m.degree w) (ht.reroot hperm hring') (Function.update_self _ _ _)
    (List.mem_append_right _ (List.mem_singleton_self w)) (by omega) hA'
  have hx₁root : x₁ ∈ R₁ none := hspec.roots ▸ List.mem_append_right _ hspec.mem
  have hd₁ : d₁ < maxDegree := by
    rw [← hspec.degree]
    exact hspec.tidy.shape.degree_lt hspec.tidy.markThin hcard
      (hspec.tidy.shape.forest.mem hx₁root)
  refine ⟨m₁, A₁, x₁, d₁, R₁, T₁, hmerge, hd₁, hspec.tidy, hspec.roots, fun d a => ?_,
    fun a ha => ?_⟩
  · show _ ↔ a ∈ T₁ ∧ m₁.degree a = d
    by_cases hd : d = d₁
    · subst hd
      rw [Function.update_self]
      constructor
      · intro heq
        obtain rfl := Option.some.inj heq
        exact ⟨hspec.mem, hspec.degree⟩
      · rintro ⟨haT, hdega⟩
        by_contra hne
        have hreg := (hspec.registered d a).mpr ⟨⟨haT, fun heq => hne (by rw [heq])⟩, hdega⟩
        rw [hspec.vacant] at hreg
        cases hreg
    · rw [Function.update_of_ne hd, hspec.registered d a]
      refine and_congr_left fun hdega => ⟨And.left, fun haT => ⟨haT, ?_⟩⟩
      rintro rfl
      exact hd (hdega.symm.trans hspec.degree)
  · cases todo with
    | nil => cases ha
    | cons b todo =>
      obtain rfl : b = a := Option.some.inj ha
      exact hring.right_head

/-- **The walk over the roots**, by induction on the ones to come. -/
theorem consolidateRoots_spec (h : IsComparator fun a b => cmp (some a) (some b))
    (hdata : ∀ a ∈ nodes, ∃ v, data a = some v) (hcard : nodes.card ≤ intMax) (todo : List Addr)
    {A : ℕ → Option Addr} {S : List Addr} {w : Addr} (ht : Tidy cmp data m R nodes)
    (hroots : R none = todo ++ S) (hw : ∀ a ∈ todo.head?, w = a)
    (hA : Registered m A fun a => a ∈ S) :
    ∃ m' A' R', consolidateRoots cmp data todo.length m A w = (m', A') ∧
      Walked cmp data nodes m' A' R' := by
  induction todo generalizing m R A S w with
  | nil =>
    refine ⟨m, A, R, rfl, ht, ?_⟩
    rwa [hroots, List.nil_append]
  | cons x todo ih =>
    obtain rfl : w = x := hw x rfl
    obtain ⟨v, hv⟩ := hdata w (ht.shape.forest.mem (hroots ▸ List.mem_cons_self : w ∈ R none))
    obtain ⟨m₁, A₁, x₁, d₁, R₁, T₁, hmerge, hd₁, ht₁, hroots₁, hA₁, hnext⟩ :=
      walkTurn_spec h hdata hcard ht hroots hA
    obtain ⟨m', A', R', hrun, hwalked⟩ := ih ht₁ hroots₁ hnext hA₁
    refine ⟨m', A', R', ?_, hwalked⟩
    have hnull : ¬data w = none := by simp [hv]
    rw [List.length_cons, consolidateRoots]
    simp only [if_neg hnull, hmerge, if_pos hd₁]
    exact hrun

/-- **The first loop** counts the roots. -/
theorem countRoots_spec {start : Addr} {s u : List Addr} {w : Addr}
    (hring : IsRing m.toDll (s ++ w :: u)) (hnd : (s ++ w :: u).Nodup)
    (hstart : (s ++ w :: u).head? = some start) {fuel : ℕ} (hfuel : u.length < fuel) :
    m.countRoots start fuel w = some (u.length + 1) := by
  induction u generalizing s w fuel with
  | nil =>
    obtain ⟨fuel, rfl⟩ : ∃ k, fuel = k + 1 := ⟨fuel - 1, by omega⟩
    have hback : m.right w = start := by
      cases s with
      | nil =>
        obtain rfl : w = start := Option.some.inj hstart
        exact (isRing_singleton.mp hring).1
      | cons a s =>
        obtain rfl : a = start := Option.some.inj hstart
        exact (IsRing.left_head hring).2
    rw [countRoots, if_pos hback]
    rfl
  | cons b u ih =>
    obtain ⟨fuel, rfl⟩ : ∃ k, fuel = k + 1 := ⟨fuel - 1, by omega⟩
    rw [List.length_cons] at hfuel
    have hnext : m.right w = b := IsRing.right_head (l := u ++ s) (IsRing.rotate hring)
    have hne : b ≠ start := by
      rintro rfl
      cases s with
      | nil =>
        obtain rfl : w = b := Option.some.inj hstart
        exact (List.nodup_cons.mp hnd).1 List.mem_cons_self
      | cons a s =>
        obtain rfl : a = b := Option.some.inj hstart
        exact (List.nodup_cons.mp hnd).1 (by simp)
    have hsplit : s ++ w :: b :: u = s ++ [w] ++ b :: u := by simp
    rw [hsplit] at hring hnd hstart
    rw [countRoots, hnext, if_neg hne, ih hring hnd hstart (by omega)]
    rfl

/-! ## The new ring

Only left and right fields are written, and the forest below the roots stays as it is. -/

/-- The ring of roots collected so far: those of degree less than `k`, the minimum in front. The
nodes that are still to come are in no ring, as their fields are stale. -/
structure Collected (cmp : Option α → Option α → ℤ) (data : Addr → Option α) (m : FibNodes)
    (R : Option Addr → List Addr) (k : ℕ) (s : FibNodes × Option Addr) (l : List Addr) : Prop where
  rings : Rings s.1.toDll (Function.update R none l)
  /-- Every root of a degree that was come to, and no other. -/
  mem_iff : ∀ a, a ∈ l ↔ a ∈ R none ∧ m.degree a < k
  head : s.2 = l.head?
  min_le : ∀ c, s.2 = some c → ∀ a ∈ l, cmp (data c) (data a) ≤ 0
  parent : s.1.parent = m.parent
  child : s.1.child = m.child
  degree : s.1.degree = m.degree
  mark : s.1.mark = m.mark

/-- A node outside all rings may be made a ring of its own, and put in after the head of one. -/
theorem collectRoot_rings {s : FibNodes} {Q : Option Addr → List Addr} (hrings : Rings s.toDll Q)
    {a c : Addr} {t : List Addr} (hroots : Q none = c :: t) (ha : ∀ o, a ∉ Q o) :
    Rings (((s.setRight a a).setLeft a a).spliceIn c a).toDll
      (Function.update Q none (c :: a :: t)) := by
  have hloop : Rings ((s.setRight a a).setLeft a a).toDll Q := by
    refine hrings.congr fun o b hb => ?_
    have hba : b ≠ a := fun heq => ha o (heq ▸ hb)
    exact ⟨Function.update_of_ne hba _ _, Function.update_of_ne hba _ _⟩
  have hc : c ∈ Q none := hroots ▸ List.mem_cons_self
  refine hloop.insert hroots ha (spliceIn_inserted (fun heq => ha none (heq ▸ hc)) fun heq => ?_)
  exact ha none (heq ▸ (hloop.neighbours hc).1.1)

theorem collectRoot_of_none {A : ℕ → Option Addr} {k : ℕ} (hAk : A k = none)
    (s : FibNodes × Option Addr) : collectRoot cmp data A s k = s := by
  rw [collectRoot, hAk]

theorem collectRoot_of_some (cmp : Option α → Option α → ℤ) (data : Addr → Option α)
    {A : ℕ → Option Addr} {k : ℕ} {a : Addr} (hAk : A k = some a) (s : FibNodes × Option Addr) :
    collectRoot cmp data A s k =
      match s.2 with
      | none => ((s.1.setRight a a).setLeft a a, some a)
      | some c => (((s.1.setRight a a).setLeft a a).spliceIn c a,
          if cmp (data a) (data c) < 0 then some a else some c) := by
  have hself : (s.1.setRight a a).right a = a := Function.update_self _ _ _
  rw [collectRoot, hAk]
  cases s.2 with
  | none => simp only [hself]
  | some c => simp only [hself]

section Collect

variable {k : ℕ} {s : FibNodes × Option Addr} {l : List Addr} {a : Addr}

/-- There is no root of degree `k`. -/
theorem Collected.skip (hs : Collected cmp data m R k s l) (hk : ∀ a ∈ R none, m.degree a ≠ k) :
    Collected cmp data m R (k + 1) s l := by
  refine ⟨hs.rings, fun a => ?_, hs.head, hs.min_le, hs.parent, hs.child, hs.degree, hs.mark⟩
  rw [hs.mem_iff]
  refine and_congr_right fun ha => ?_
  have := hk a ha
  omega

/-- The root collected is in no ring yet. -/
theorem Collected.limbo (hs : Collected cmp data m R k s l) (hF : IsForest R nodes)
    (ha : a ∈ R none) (hdeg : m.degree a = k) : ∀ o, a ∉ Function.update R none l o := by
  intro o hmem
  cases o with
  | none =>
    rw [Function.update_self, hs.mem_iff, hdeg] at hmem
    exact Nat.lt_irrefl _ hmem.2
  | some p =>
    rw [Function.update_of_ne (by simp)] at hmem
    exact hF.notMem_of_ne ha (by simp) hmem

/-- The new root joins the ring collected so far. -/
theorem Collected.join (hs : Collected cmp data m R k s l)
    (hk : ∀ b ∈ R none, m.degree b = k ↔ b = a) (ha : a ∈ R none) {s' : FibNodes × Option Addr}
    {l' : List Addr} (hl : l'.Perm (a :: l)) (hrings : Rings s'.1.toDll (Function.update R none l'))
    (hhead : s'.2 = l'.head?)
    (hmin : ∀ c, s'.2 = some c → cmp (data c) (data a) ≤ 0 ∧ ∀ b ∈ l, cmp (data c) (data b) ≤ 0)
    (hparent : s'.1.parent = s.1.parent) (hchild : s'.1.child = s.1.child)
    (hdegree : s'.1.degree = s.1.degree) (hmark : s'.1.mark = s.1.mark) :
    Collected cmp data m R (k + 1) s' l' := by
  refine ⟨hrings, fun b => ?_, hhead, fun c hc b hb => ?_, hparent.trans hs.parent,
    hchild.trans hs.child, hdegree.trans hs.degree, hmark.trans hs.mark⟩
  · rw [hl.mem_iff, List.mem_cons, hs.mem_iff]
    constructor
    · rintro (rfl | ⟨hb, hdeg⟩)
      · exact ⟨ha, ((hk b ha).mpr rfl).trans_lt (Nat.lt_succ_self k)⟩
      · exact ⟨hb, hdeg.trans (Nat.lt_succ_self k)⟩
    · rintro ⟨hb, hdeg⟩
      rcases Nat.lt_succ_iff_lt_or_eq.mp hdeg with hdeg | hdeg
      · exact .inr ⟨hb, hdeg⟩
      · exact .inl ((hk b hb).mp hdeg)
  · rcases List.mem_cons.mp (hl.mem_iff.mp hb) with rfl | hb
    · exact (hmin c hc).1
    · exact (hmin c hc).2 b hb

end Collect

/-- **One root is collected.** -/
theorem collectRoot_spec (h : IsComparator fun a b => cmp (some a) (some b))
    (hdata : ∀ a ∈ nodes, ∃ v, data a = some v) {A : ℕ → Option Addr}
    (hwalked : Walked cmp data nodes m A R) {k : ℕ} {s : FibNodes × Option Addr} {l : List Addr}
    (hs : Collected cmp data m R k s l) :
    ∃ l', Collected cmp data m R (k + 1) (collectRoot cmp data A s k) l' := by
  have hF := hwalked.tidy.shape.forest
  cases hAk : A k with
  | none =>
    rw [collectRoot_of_none hAk]
    refine ⟨l, hs.skip fun a ha hdeg => ?_⟩
    have := (hwalked.registered k a).mpr ⟨ha, hdeg⟩
    rw [hAk] at this
    cases this
  | some a =>
    obtain ⟨ha, hadeg⟩ := (hwalked.registered k a).mp hAk
    have hk : ∀ b ∈ R none, m.degree b = k ↔ b = a := by
      refine fun b hb => ⟨fun hdeg => ?_, fun hba => hba ▸ hadeg⟩
      have := (hwalked.registered k b).mpr ⟨hb, hdeg⟩
      rw [hAk] at this
      exact (Option.some.inj this).symm
    have hlimbo := hs.limbo hF ha hadeg
    have hdataa := hdata a (hF.mem ha)
    rw [collectRoot_of_some cmp data hAk, hs.head]
    cases hl : l with
    | nil =>
      have hloop : Looped s.1.toDll ((s.1.setRight a a).setLeft a a).toDll a :=
        ⟨Function.update_self _ _ _, Function.update_self _ _ _,
          fun b hb => Function.update_of_ne hb _ _, fun b hb => Function.update_of_ne hb _ _⟩
      have hrings := hs.rings.single (o := none) (fun o _ => hlimbo o) hloop
      rw [Function.update_idem] at hrings
      refine ⟨[a], hs.join hk ha (by rw [hl]) hrings rfl (fun c hc => ?_) rfl rfl rfl rfl⟩
      obtain rfl := Option.some.inj hc
      exact ⟨payload_self h hdataa, by simp [hl]⟩
    | cons c t =>
      have hmin : s.2 = some c := by rw [hs.head, hl]; rfl
      have hcl : c ∈ l := hl ▸ List.mem_cons_self
      have hdatal : ∀ b ∈ l, ∃ v, data b = some v := fun b hb =>
        hdata b (hF.mem ((hs.mem_iff b).mp hb).1)
      have hca := hs.min_le c hmin
      have hroots : Function.update R none l none = c :: t := by rw [Function.update_self, hl]
      have hrings := collectRoot_rings hs.rings hroots hlimbo
      rw [Function.update_idem] at hrings
      have hfront : (a :: t ++ [c]).Perm (a :: l) := by
        rw [hl]
        exact (List.perm_append_singleton c t).cons _
      have hsecond : (c :: a :: t).Perm (a :: l) := by
        rw [hl]
        exact List.Perm.swap _ _ _
      by_cases hlt : cmp (data a) (data c) < 0
      · have hrot := hrings.rotate (o := none) (s := [c]) (t := a :: t) (Function.update_self _ _ _)
        rw [Function.update_idem] at hrot
        refine ⟨a :: t ++ [c], hs.join hk ha hfront hrot (if_pos hlt) (fun c' hc' => ?_)
          rfl rfl rfl rfl⟩
        obtain rfl := Option.some.inj ((if_pos hlt).symm.trans hc')
        exact ⟨payload_self h hdataa, fun b hb =>
          payload_trans h hdataa (hdatal c hcl) (hdatal b hb) hlt.le (hca b hb)⟩
      · refine ⟨c :: a :: t, hs.join hk ha hsecond hrings (if_neg hlt) (fun c' hc' => ?_)
          rfl rfl rfl rfl⟩
        obtain rfl := Option.some.inj ((if_neg hlt).symm.trans hc')
        exact ⟨payload_le_of_not_lt h hdataa (hdatal c hcl) hlt, hca⟩

/-- What `consolidate` has in the end. -/
structure Consolidated (cmp : Option α → Option α → ℤ) (data : Addr → Option α)
    (nodes : Finset Addr) (m' : FibNodes) (min' : Option Addr)
    (R' : Option Addr → List Addr) : Prop where
  tidy : Tidy cmp data m' R' nodes
  head : min' = (R' none).head?
  min_le : ∀ c, min' = some c → ∀ a ∈ R' none, cmp (data c) (data a) ≤ 0

/-- **The last loop** builds the ring of all roots. -/
theorem collectRoots_spec (h : IsComparator fun a b => cmp (some a) (some b))
    (hdata : ∀ a ∈ nodes, ∃ v, data a = some v) (hcard : nodes.card ≤ intMax)
    {A : ℕ → Option Addr} (hwalked : Walked cmp data nodes m A R) :
    ∃ m' min' R', (List.range maxDegree).foldl (collectRoot cmp data A) (m, none) = (m', min') ∧
      Consolidated cmp data nodes m' min' R' := by
  have hsome : ∀ k, ∃ l,
      Collected cmp data m R k ((List.range k).foldl (collectRoot cmp data A) (m, none)) l := by
    intro k
    induction k with
    | zero =>
      refine ⟨[], hwalked.tidy.shape.rings.reread List.nodup_nil (List.nil_subset _) trivial,
        fun a => ?_, rfl, nofun, rfl, rfl, rfl, rfl⟩
      simp
    | succ k ih =>
      obtain ⟨l, hl⟩ := ih
      rw [List.range_succ, List.foldl_append]
      exact collectRoot_spec h hdata hwalked hl
  obtain ⟨l, hl⟩ := hsome maxDegree
  obtain ⟨⟨m', min'⟩, hres⟩ : ∃ s, s = (List.range maxDegree).foldl (collectRoot cmp data A)
      (m, none) := ⟨_, rfl⟩
  rw [← hres] at hl
  have ht := hwalked.tidy
  have hperm : l.Perm (R none) := by
    refine (List.perm_ext_iff_of_nodup ?_ (ht.shape.forest.nodup none)).mpr fun a => ?_
    · have := hl.rings.nodup none
      rwa [Function.update_self] at this
    · rw [hl.mem_iff]
      exact ⟨And.left, fun ha =>
        ⟨ha, ht.shape.degree_lt ht.markThin hcard (ht.shape.forest.mem ha)⟩⟩
  refine ⟨m', min', Function.update R none l, hres.symm,
    ⟨ht.rerootOf hperm hl.rings.ring hl.parent hl.child hl.degree hl.mark, ?_, ?_⟩⟩
  · rw [Function.update_self]
    exact hl.head
  · rw [Function.update_self]
    exact hl.min_le

/-- **`consolidate`**, given more fuel than roots: the same nodes in a thin heap-ordered forest, in
which the first root is a minimum of the roots. -/
theorem consolidate_spec (h : IsComparator fun a b => cmp (some a) (some b))
    (hdata : ∀ a ∈ nodes, ∃ v, data a = some v) (hcard : nodes.card ≤ intMax)
    (ht : Tidy cmp data m R nodes) {start : Addr} {t : List Addr} (hroots : R none = start :: t)
    {fuel : ℕ} (hfuel : t.length < fuel) :
    ∃ m' min' R', m.consolidate cmp data fuel (some start) = some (m', min') ∧
      Consolidated cmp data nodes m' min' R' := by
  have hring := ht.shape.ring none
  have hnd := ht.shape.forest.nodup none
  rw [hroots] at hring hnd
  have hcount : m.countRoots start fuel start = some (start :: t).length :=
    countRoots_spec (s := []) hring hnd rfl hfuel
  obtain ⟨m₁, A₁, R₁, hwalk, hwalked⟩ := consolidateRoots_spec h hdata hcard (start :: t) ht
    (S := []) (A := fun _ => none) (w := start) (by rw [hroots, List.append_nil])
    (fun a ha => Option.some.inj ha) (fun d a => by simp)
  obtain ⟨m', min', R', hcollect, hspec⟩ := collectRoots_spec h hdata hcard hwalked
  refine ⟨m', min', R', ?_, hspec⟩
  rw [consolidate]
  simp only [hcount, Option.map_some, hwalk, hcollect]

end FibNodes

end Heap

end OvaLib
