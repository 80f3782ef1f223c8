import Mathlib.Algebra.BigOperators.Group.Finset.Basic
import Mathlib.Algebra.Order.BigOperators.Group.Finset
import Mathlib.Data.Set.Finite.Basic
import Mathlib.Logic.Relation
import Mathlib.Tactic.Common

/-!
# Minimum spanning forests

The edges of an undirected multigraph are the elements of a type, each with its two ends. A set of
edges joins vertices, and it is a forest when no edge of it joins vertices that the others join
already. A set of edges that can be completed to a spanning forest as light as any other stays so
when it takes in a lightest edge that leaves the parts of a partition.

The last statement is what both of the greedy algorithms rest on. One takes the edges by weight and
has the classes of joined vertices for a partition, the other one takes the lightest edge that
leaves what it has, and the partition has two parts. The proof is an exchange: a completion without
the edge has a way between its ends, which leaves the part somewhere by another edge, and that one
is not lighter.

Weights are in an ordered group, and edges of equal weight are allowed, so a minimum need not be the
only one. The graph need not be connected; a spanning forest joins what the graph joins.

## Main results

* `joined_insert_iff` — what one more edge joins
* `IsEdgeForest.insert_edge`, `IsEdgeForest.exchange` — the forests that differ by one edge
* `Light.insert_edge` — the lightest edge across a partition is safe
* `Light.isMinSpanningForest` — a light set that spans is a minimum
-/

namespace Foundation

open Relation Finset

variable {ε V : Type*} {ends : ε → V × V}

/-! ## Joining -/

/-- The edges of `F` join two vertices. -/
def Joined (ends : ε → V × V) (F : Set ε) : V → V → Prop :=
  EqvGen fun u v => ∃ e ∈ F, ends e = (u, v)

/-- **A forest**: no edge joins vertices that the other edges join already. -/
def IsEdgeForest (ends : ε → V × V) (F : Set ε) : Prop :=
  ∀ e ∈ F, ¬ Joined ends (F \ {e}) (ends e).1 (ends e).2

namespace Joined

variable {F T : Set ε} {p q r : V}

theorem refl (F : Set ε) (p : V) : Joined ends F p p := EqvGen.refl p

theorem symm (h : Joined ends F p q) : Joined ends F q p := EqvGen.symm _ _ h

theorem trans (h : Joined ends F p q) (h' : Joined ends F q r) : Joined ends F p r :=
  EqvGen.trans _ _ _ h h'

theorem of_mem {e : ε} (he : e ∈ F) : Joined ends F (ends e).1 (ends e).2 :=
  EqvGen.rel _ _ ⟨e, he, rfl⟩

/-- Joined vertices are equivalent wherever the ends of the edges are. -/
theorem of_equivalence {R : V → V → Prop} (hR : Equivalence R)
    (hF : ∀ e ∈ F, R (ends e).1 (ends e).2) (h : Joined ends F p q) : R p q := by
  induction h with
  | rel u v huv =>
    obtain ⟨e, he, hends⟩ := huv
    have hedge := hF e he
    rwa [hends] at hedge
  | refl u => exact hR.refl u
  | symm u v _ ih => exact hR.symm ih
  | trans u v w _ _ ih ih' => exact hR.trans ih ih'

theorem equivalence (F : Set ε) : Equivalence (Joined ends F) :=
  ⟨refl F, symm, trans⟩

/-- Edges whose ends another set joins join nothing that it does not join. -/
theorem of_edges (hF : ∀ e ∈ F, Joined ends T (ends e).1 (ends e).2)
    (h : Joined ends F p q) : Joined ends T p q :=
  of_equivalence (equivalence T) hF h

theorem mono (hFT : F ⊆ T) (h : Joined ends F p q) : Joined ends T p q :=
  of_edges (fun _ he => of_mem (hFT he)) h

end Joined

open Foundation.Joined

section

variable {F T : Set ε} {e : ε} {p q : V}

/-- **What one more edge joins.** -/
theorem joined_insert_iff : Joined ends (insert e F) p q ↔ Joined ends F p q ∨
    (Joined ends F p (ends e).1 ∧ Joined ends F (ends e).2 q) ∨
      (Joined ends F p (ends e).2 ∧ Joined ends F (ends e).1 q) := by
  constructor
  · intro h
    induction h with
    | rel u v huv =>
      obtain ⟨g, hg, hends⟩ := huv
      rcases hg with rfl | hg
      · rw [hends]
        exact .inr (.inl ⟨.refl F u, .refl F v⟩)
      · exact .inl (EqvGen.rel _ _ ⟨g, hg, hends⟩)
    | refl u => exact .inl (.refl F u)
    | symm u v _ ih =>
      rcases ih with h | ⟨h, h'⟩ | ⟨h, h'⟩
      · exact .inl h.symm
      · exact .inr (.inr ⟨h'.symm, h.symm⟩)
      · exact .inr (.inl ⟨h'.symm, h.symm⟩)
    | trans u v w _ _ ih ih' =>
      rcases ih with h | ⟨h, h'⟩ | ⟨h, h'⟩
      · rcases ih' with k | ⟨k, k'⟩ | ⟨k, k'⟩
        · exact .inl (h.trans k)
        · exact .inr (.inl ⟨h.trans k, k'⟩)
        · exact .inr (.inr ⟨h.trans k, k'⟩)
      · rcases ih' with k | ⟨k, k'⟩ | ⟨k, k'⟩
        · exact .inr (.inl ⟨h, h'.trans k⟩)
        · exact .inr (.inl ⟨h, k'⟩)
        · exact .inl (h.trans k')
      · rcases ih' with k | ⟨k, k'⟩ | ⟨k, k'⟩
        · exact .inr (.inr ⟨h, h'.trans k⟩)
        · exact .inl (h.trans k')
        · exact .inr (.inr ⟨h, k'⟩)
  · have hsub : F ⊆ insert e F := Set.subset_insert e F
    have hedge : Joined ends (insert e F) (ends e).1 (ends e).2 := .of_mem (Set.mem_insert e F)
    rintro (h | ⟨h, h'⟩ | ⟨h, h'⟩)
    · exact h.mono hsub
    · exact ((h.mono hsub).trans hedge).trans (h'.mono hsub)
    · exact ((h.mono hsub).trans hedge.symm).trans (h'.mono hsub)

/-! ## Forests

What one edge more or another edge makes of a forest. -/

theorem isEdgeForest_empty (ends : ε → V × V) : IsEdgeForest ends ∅ :=
  fun _ he => absurd he (Set.notMem_empty _)

theorem IsEdgeForest.mono (hT : IsEdgeForest ends T) (h : F ⊆ T) : IsEdgeForest ends F :=
  fun g hg hjoined => hT g (h hg) (hjoined.mono fun _ hx => ⟨h hx.1, hx.2⟩)

/-- **An edge between vertices that were not joined** makes a forest larger. -/
theorem IsEdgeForest.insert_edge (hF : IsEdgeForest ends F)
    (he : ¬ Joined ends F (ends e).1 (ends e).2) :
    IsEdgeForest ends (insert e F) := by
  intro g hg hjoined
  by_cases hge : g = e
  · subst hge
    exact he (hjoined.mono fun x hx => hx.1.resolve_left hx.2)
  · have hgF : g ∈ F := hg.resolve_left hge
    have hsub : insert e F \ {g} ⊆ insert e (F \ {g}) := fun x hx =>
      hx.1.imp_right fun hxF => ⟨hxF, hx.2⟩
    have hback : F \ {g} ⊆ F := Set.sdiff_subset
    have hedge : Joined ends F (ends g).1 (ends g).2 := .of_mem hgF
    rcases joined_insert_iff.mp (hjoined.mono hsub) with h | ⟨h, h'⟩ | ⟨h, h'⟩
    · exact hF g hgF h
    · exact he (((h.mono hback).symm.trans hedge).trans (h'.mono hback).symm)
    · exact he (((h'.mono hback).trans hedge.symm).trans (h.mono hback))

/-- Vertices that a forest joins but a part of it does not are held together by some edge outside
that part. -/
theorem IsEdgeForest.exists_bridge (hT : IsEdgeForest ends T) (hfin : T.Finite) 
    {A : Set ε} (hA : A ⊆ T)
    (hjoined : Joined ends T p q) (hnot : ¬ Joined ends A p q) :
    ∃ f ∈ T, f ∉ A ∧ ¬ Joined ends (T \ {f}) p q := by
  -- edges are added to `A` one by one; the first that joins the two vertices is the one
  have hadd : ∀ S : Set ε, S.Finite → Joined ends (A ∪ S) p q →
      ∃ B f, A ⊆ B ∧ B ⊆ A ∪ S ∧ f ∈ S ∧ f ∉ B ∧ ¬ Joined ends B p q ∧
        Joined ends (insert f B) p q := by
    intro S hS
    induction S, hS using Set.Finite.induction_on with
    | empty =>
      intro h
      rw [Set.union_empty] at h
      exact absurd h hnot
    | @insert s S hs _ ih =>
      intro h
      by_cases hless : Joined ends (A ∪ S) p q
      · obtain ⟨B, f, hAB, hBS, hf, hrest⟩ := ih hless
        exact ⟨B, f, hAB, hBS.trans (Set.union_subset_union_right A (Set.subset_insert s S)),
          Set.mem_insert_of_mem s hf, hrest⟩
      · rw [Set.union_insert] at h
        have hsnot : s ∉ A ∪ S := fun hmem => hless (by rwa [Set.insert_eq_of_mem hmem] at h)
        exact ⟨A ∪ S, s, Set.subset_union_left,
          Set.union_subset_union_right A (Set.subset_insert s S), Set.mem_insert s S, hsnot,
          hless, h⟩
  obtain ⟨B, f, hAB, hBS, hf, hfB, hless, hmore⟩ := hadd (T \ A) (hfin.subset Set.sdiff_subset)
    (by rwa [Set.union_sdiff_cancel hA])
  rw [Set.union_sdiff_cancel hA] at hBS
  have hsub : B ⊆ T \ {f} := fun x hx => ⟨hBS hx, fun hxf => hfB (hxf ▸ hx)⟩
  refine ⟨f, hf.1, hf.2, fun hstill => ?_⟩
  rcases joined_insert_iff.mp hmore with h | ⟨h, h'⟩ | ⟨h, h'⟩
  · exact hless h
  · exact hT f hf.1 (((h.mono hsub).symm.trans hstill).trans (h'.mono hsub).symm)
  · exact hT f hf.1 (((h'.mono hsub).trans hstill.symm).trans (h.mono hsub))

/-- **An exchange**: an edge takes the place of one without which its ends are not joined. -/
theorem IsEdgeForest.exchange (hT : IsEdgeForest ends T) {f : ε} (hf : f ∈ T)
    (hjoined : Joined ends T (ends e).1 (ends e).2)
    (hnot : ¬ Joined ends (T \ {f}) (ends e).1 (ends e).2) :
    IsEdgeForest ends (insert e (T \ {f})) ∧
      ∀ p q, Joined ends (insert e (T \ {f})) p q ↔ Joined ends T p q := by
  have hsub : T \ {f} ⊆ T := Set.sdiff_subset
  have hnew : T \ {f} ⊆ insert e (T \ {f}) := Set.subset_insert _ _
  have hedge : Joined ends (insert e (T \ {f})) (ends e).1 (ends e).2 :=
    .of_mem (Set.mem_insert _ _)
  refine ⟨(hT.mono hsub).insert_edge hnot, fun p q => ⟨fun h => h.of_edges fun g hg => ?_,
    fun h => h.of_edges fun g hg => ?_⟩⟩
  · rcases hg with rfl | hg
    · exact hjoined
    · exact .of_mem (hsub hg)
  · by_cases hgf : g = f
    · subst hgf
      have hsplit : Joined ends (insert g (T \ {g})) (ends e).1 (ends e).2 := by
        rwa [Set.insert_sdiff_singleton, Set.insert_eq_of_mem hf]
      rcases joined_insert_iff.mp hsplit with h | ⟨h, h'⟩ | ⟨h, h'⟩
      · exact absurd h hnot
      · exact ((h.mono hnew).symm.trans hedge).trans (h'.mono hnew).symm
      · exact ((h'.mono hnew).trans hedge.symm).trans (h.mono hnew)
    · exact .of_mem (Set.mem_insert_of_mem _ ⟨hg, hgf⟩)

end

/-! ## Spanning forests -/

variable {E : Set ε}

/-- A spanning forest: a forest of edges of `E` that joins what `E` joins. -/
structure IsSpanningForest (ends : ε → V × V) (E : Set ε) (F : Finset ε) : Prop where
  subset : ↑F ⊆ E
  forest : IsEdgeForest ends (F : Set ε)
  joined : ∀ u v, Joined ends (F : Set ε) u v ↔ Joined ends E u v

variable {R : Type*} [AddCommGroup R] [LinearOrder R]

/-- A spanning forest of minimum total weight. -/
structure IsMinSpanningForest (ends : ε → V × V) (weight : ε → R) (E : Set ε) (F : Finset ε) :
    Prop extends IsSpanningForest ends E F where
  minimal : ∀ T, IsSpanningForest ends E T → ∑ e ∈ F, weight e ≤ ∑ e ∈ T, weight e

/-- The edges `F` are part of a spanning forest as light as any. -/
def Light (ends : ε → V × V) (weight : ε → R) (E : Set ε) (F : Finset ε) : Prop :=
  ∀ T, IsSpanningForest ends E T →
    ∃ T', IsSpanningForest ends E T' ∧ F ⊆ T' ∧ ∑ e ∈ T', weight e ≤ ∑ e ∈ T, weight e

variable {weight : ε → R} {F : Finset ε}

theorem light_empty (ends : ε → V × V) (weight : ε → R) (E : Set ε) :
    Light ends weight E ∅ :=
  fun T hT => ⟨T, hT, empty_subset T, le_refl _⟩

/-- **A light set that spans is a minimum spanning forest.** -/
theorem Light.isMinSpanningForest (h : Light ends weight E F) (hF : IsSpanningForest ends E F) :
    IsMinSpanningForest ends weight E F := by
  refine ⟨hF, fun T hT => ?_⟩
  obtain ⟨T', hT', hsub, hle⟩ := h T hT
  have heq : F = T' := by
    refine Subset.antisymm hsub fun g hg => ?_
    by_contra hnot
    refine hT'.forest g hg (Joined.mono (F := (F : Set ε)) (fun x hx => ⟨hsub hx, ?_⟩)
      ((hF.joined _ _).mpr (.of_mem (hT'.subset hg))))
    rintro rfl
    exact hnot hx
  rw [heq]
  exact hle

/-- Two minimum spanning forests weigh the same. -/
theorem IsMinSpanningForest.sum_eq {F' : Finset ε} (h : IsMinSpanningForest ends weight E F)
    (h' : IsMinSpanningForest ends weight E F') : ∑ e ∈ F, weight e = ∑ e ∈ F', weight e :=
  le_antisymm (h.minimal F' h'.toIsSpanningForest) (h'.minimal F h.toIsSpanningForest)

variable [IsOrderedAddMonoid R]

/-- **The cut lemma**: a lightest edge across a partition of the vertices is safe when no edge so
far leaves a part. -/
theorem Light.insert_edge [DecidableEq ε] (h : Light ends weight E F) {P : V → V → Prop}
    (hP : Equivalence P) (hF : ∀ g ∈ F, P (ends g).1 (ends g).2) {e : ε} (he : e ∈ E)
    (hcross : ¬ P (ends e).1 (ends e).2)
    (hlightest : ∀ f ∈ E, ¬ P (ends f).1 (ends f).2 → weight e ≤ weight f) :
    Light ends weight E (insert e F) := by
  intro T hT
  obtain ⟨T₁, hT₁, hFT, hle⟩ := h T hT
  have hjoined : Joined ends (T₁ : Set ε) (ends e).1 (ends e).2 := (hT₁.joined _ _).mpr (.of_mem he)
  obtain ⟨f, hf, hfout, hbridge⟩ := hT₁.forest.exists_bridge T₁.finite_toSet
    (A := {g | g ∈ T₁ ∧ P (ends g).1 (ends g).2}) (fun g hg => hg.1) hjoined
    fun hin => hcross (hin.of_equivalence hP fun g hg => hg.2)
  have hfcross : ¬ P (ends f).1 (ends f).2 := fun hP' => hfout ⟨hf, hP'⟩
  obtain ⟨hforest, hsame⟩ := hT₁.forest.exchange hf hjoined hbridge
  rw [← coe_erase, ← coe_insert] at hforest hsame
  have hF' : insert e F ⊆ insert e (T₁.erase f) := by
    refine insert_subset_insert e fun g hg => mem_erase.mpr ⟨?_, hFT hg⟩
    rintro rfl
    exact hfcross (hF g hg)
  refine ⟨insert e (T₁.erase f), ⟨?_, hforest, fun u v => (hsame u v).trans (hT₁.joined u v)⟩, hF',
    le_trans ?_ hle⟩
  · intro g hg
    rcases mem_insert.mp (mem_coe.mp hg) with rfl | hg
    · exact he
    · exact hT₁.subset (mem_of_mem_erase hg)
  · have hsum := add_sum_erase T₁ weight hf
    by_cases hmem : e ∈ T₁.erase f
    · -- the edge is in the forest already, and its ends are joined without `f`
      have hin : e ∈ (T₁ : Set ε) \ {f} := by
        rw [← coe_erase]
        exact mem_coe.mpr hmem
      exact absurd (Joined.of_mem hin) hbridge
    · rw [sum_insert hmem, ← hsum]
      exact add_le_add_left (hlightest f (hT₁.subset hf) hfcross) _

end Foundation
