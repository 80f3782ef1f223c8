import Mathlib.Data.Set.Card
import OvaLib.Foundation.SpanningForest

/-!
# Circuits in undirected graphs

A circuit of an undirected graph is a loop or a closed path over at least three vertices. Where no
two edges have the same ends, the edges form a forest exactly when there is no circuit, and exactly
when there are as many edges as vertices less the classes of joined vertices.

The three characterisations are about sets of edges with two ends each. A forest is a set in which
no edge joins vertices that the others join, which is what an algorithm that adds edges one at a
time sees. A circuit is what a search finds when it comes to a vertex a second time, and the count
needs no search at all. From a forest to the count is an induction over the edges, where each one
either merges two classes or closes a circuit; from an edge that closes a circuit to the circuit is
a shortest way between its ends in the others.

Two edges between the same ends would make a closed path over two vertices, which is no circuit, and
for that reason the graph has to be simple.

## Main results

* `isEdgeForest_iff_not_hasCircuit` — a forest is a graph without a circuit
* `card_spanning` — the number of edges of a forest, and of any other graph
* `hasCircuit_iff_card_lt` — a circuit is an edge too many
-/

namespace Foundation

open Relation

variable {ε V : Type*} {ends : ε → V × V} {F : Set ε} {a b p q u v : V}

/-! ## Circuits -/

/-- An edge of `F` has these two ends. -/
def Adjacent (ends : ε → V × V) (F : Set ε) (u v : V) : Prop :=
  ∃ e ∈ F, ends e = (u, v) ∨ ends e = (v, u)

/-- A loop, or a closed path over at least three distinct vertices. -/
def HasCircuit (A : V → V → Prop) : Prop :=
  (∃ v, A v v) ∨ ∃ a middle b, middle ≠ [] ∧ (a :: (middle ++ [b])).Nodup ∧
    (a :: (middle ++ [b])).IsChain A ∧ A b a

theorem Adjacent.joined (h : Adjacent ends F u v) : Joined ends F u v := by
  obtain ⟨e, he, hends | hends⟩ := h
  · exact EqvGen.rel _ _ ⟨e, he, hends⟩
  · exact EqvGen.symm _ _ (EqvGen.rel _ _ ⟨e, he, hends⟩)

theorem Adjacent.symm (h : Adjacent ends F u v) : Adjacent ends F v u := by
  obtain ⟨e, he, hends⟩ := h
  exact ⟨e, he, hends.symm⟩

/-- Joined vertices are in reach of each other. -/
theorem Joined.reflTransGen (h : Joined ends F p q) : ReflTransGen (Adjacent ends F) p q := by
  have : Std.Symm (Adjacent ends F) := ⟨fun _ _ => Adjacent.symm⟩
  induction h with
  | rel u v huv =>
    obtain ⟨e, he, hends⟩ := huv
    exact .single ⟨e, he, .inl hends⟩
  | refl u => exact .refl
  | symm u v _ ih => exact Std.Symm.symm _ _ ih
  | trans u v w _ _ ih ih' => exact ih.trans ih'

theorem joined_iff_reflTransGen : Joined ends F p q ↔ ReflTransGen (Adjacent ends F) p q := by
  refine ⟨Joined.reflTransGen, fun h => ?_⟩
  induction h with
  | refl => exact .refl F p
  | tail _ huv ih => exact ih.trans huv.joined

/-- A way can be taken without coming to a vertex twice. -/
theorem exists_nodup_isChain {A : V → V → Prop} (h : ReflTransGen A a b) :
    ∃ l : List V, (a :: l).Nodup ∧ (a :: l).IsChain A ∧ (a :: l).getLast? = some b := by
  classical
  induction h using ReflTransGen.head_induction_on with
  | refl => exact ⟨[], List.nodup_singleton b, List.isChain_singleton b, rfl⟩
  | @head u v huv _ ih =>
    obtain ⟨l, hnodup, hchain, hlast⟩ := ih
    by_cases hmem : u ∈ v :: l
    · -- the way comes back to `u`, and what came before can be left out
      obtain ⟨front, back, hsplit⟩ := List.append_of_mem hmem
      rw [hsplit] at hnodup hchain hlast
      refine ⟨back, (List.nodup_append.mp hnodup).2.1, (List.isChain_append.mp hchain).2.1, ?_⟩
      rwa [List.getLast?_append_of_ne_nil _ (List.cons_ne_nil u back)] at hlast
    · exact ⟨v :: l, List.nodup_cons.mpr ⟨hmem, hnodup⟩, hchain.cons_cons huv, hlast⟩

/-- No two edges have the same two ends. -/
def IsSimple (ends : ε → V × V) (F : Set ε) : Prop :=
  ∀ e ∈ F, ∀ f ∈ F, ends f = ends e ∨ ends f = (ends e).swap → f = e

/-- Where an edge joins vertices that the others join already, there is a circuit. -/
theorem hasCircuit_of_joined (hF : IsSimple ends F) {e : ε} (he : e ∈ F)
    (h : Joined ends (F \ {e}) (ends e).1 (ends e).2) : HasCircuit (Adjacent ends F) := by
  by_cases hloop : (ends e).1 = (ends e).2
  · exact .inl ⟨(ends e).1, e, he, .inl (Prod.ext rfl hloop.symm)⟩
  have hsub : ∀ u v, Adjacent ends (F \ {e}) u v → Adjacent ends F u v := by
    rintro u v ⟨f, hf, hends⟩
    exact ⟨f, hf.1, hends⟩
  obtain ⟨l, hnodup, hchain, hlast⟩ := exists_nodup_isChain h.reflTransGen
  have hne : l ≠ [] := by
    rintro rfl
    exact hloop (Option.some.inj hlast)
  obtain ⟨middle, b, rfl⟩ := (List.eq_nil_or_concat l).resolve_left hne
  rw [List.concat_eq_append] at hnodup hchain hlast
  obtain rfl : b = (ends e).2 := by
    rw [← List.cons_append, List.getLast?_concat] at hlast
    exact Option.some.inj hlast
  refine .inr ⟨(ends e).1, middle, (ends e).2, ?_, hnodup, hchain.imp fun {u v} => hsub u v,
    e, he, .inr rfl⟩
  rintro rfl
  obtain ⟨f, hf, hends⟩ := List.isChain_pair.mp hchain
  exact hf.2 (hF e he f hf.1 hends)

/-- A way that does not come to `a` does without the edges of `a`. -/
theorem joined_of_isChain {e : ε} (ha : a = (ends e).1 ∨ a = (ends e).2) : ∀ {l : List V} {u : V},
    a ∉ u :: l → (u :: l).IsChain (Adjacent ends F) → (u :: l).getLast? = some b →
    Joined ends (F \ {e}) u b := by
  intro l
  induction l with
  | nil =>
    intro u _ _ hlast
    obtain rfl : u = b := Option.some.inj hlast
    exact .refl _ u
  | cons v l ih =>
    intro u hnot hchain hlast
    obtain ⟨⟨f, hf, hends⟩, hrest⟩ := List.isChain_cons_cons.mp hchain
    have hne : f ≠ e := by
      rintro rfl
      refine hnot ?_
      rcases ha with rfl | rfl <;> rcases hends with hends | hends <;> rw [hends] <;> simp
    have hstep : Adjacent ends (F \ {e}) u v := ⟨f, ⟨hf, hne⟩, hends⟩
    exact hstep.joined.trans (ih (fun hmem => hnot (List.mem_cons_of_mem u hmem)) hrest hlast)

/-- **A forest is a graph without a circuit.** -/
theorem isEdgeForest_iff_not_hasCircuit (hF : IsSimple ends F) :
    IsEdgeForest ends F ↔ ¬ HasCircuit (Adjacent ends F) := by
  constructor
  · rintro hforest (⟨v, e, he, hends⟩ | ⟨a, middle, b, hmiddle, hnodup, hchain, e, he, hends⟩)
    · have hloop : ends e = (v, v) := hends.elim id id
      refine hforest e he ?_
      rw [hloop]
      exact .refl _ v
    · -- the way round the circuit joins the ends of the edge that closes it
      obtain ⟨c, rest, rfl⟩ := List.exists_cons_of_ne_nil hmiddle
      have hnot : a ∉ c :: (rest ++ [b]) := (List.nodup_cons.mp hnodup).1
      have hcb : c ≠ b := by
        rintro rfl
        exact (List.nodup_cons.mp (List.nodup_cons.mp hnodup).2).1 (by simp)
      obtain ⟨⟨f, hf, hfends⟩, hrest⟩ := List.isChain_cons_cons.mp hchain
      have hne : f ≠ e := by
        rintro rfl
        have hac : a ≠ c := fun h => hnot (h ▸ List.mem_cons_self)
        have hab : a ≠ b := fun h => hnot (h ▸ by simp)
        rcases hends with hends | hends <;> rcases hfends with hfends | hfends <;>
          rw [hends] at hfends <;> simp_all
      have hround : Joined ends (F \ {e}) a b := by
        have hstep : Adjacent ends (F \ {e}) a c := ⟨f, ⟨hf, hne⟩, hfends⟩
        refine hstep.joined.trans (joined_of_isChain ?_ hnot hrest ?_)
        · rcases hends with hends | hends <;> simp [hends]
        · rw [← List.cons_append, List.getLast?_concat]
      refine hforest e he ?_
      rcases hends with hends | hends
      · rw [hends]
        exact hround.symm
      · rw [hends]
        exact hround
  · intro hnone e he hjoined
    exact hnone (hasCircuit_of_joined hF he hjoined)

/-! ## Counting

By induction over a finite set of edges. -/

/-- The number of classes that a relation makes of some vertices. -/
noncomputable def classCount (r : V → V → Prop) (s : Finset V) : ℕ :=
  ((fun v => {u | r v u}) '' (s : Set V)).ncard

theorem classCount_congr {r r' : V → V → Prop} (s : Finset V) (h : ∀ u v, r u v ↔ r' u v) :
    classCount r s = classCount r' s := by
  have hsame : r = r' := funext fun u => funext fun v => propext (h u v)
  rw [hsame]

/-- Each vertex for itself. -/
theorem classCount_eq (s : Finset V) : classCount (fun u v => u = v) s = s.card := by
  rw [classCount, ← Set.ncard_coe_finset]
  refine Set.ncard_image_of_injective _ fun u v huv => ?_
  have hmem : u ∈ {w | v = w} := by
    rw [← huv]
    rfl
  exact hmem.symm

/-- The class of a vertex. -/
def classOf (r : V → V → Prop) (v : V) : Set V := {u | r v u}

theorem classCount_def (r : V → V → Prop) (s : Finset V) :
    classCount r s = (classOf r '' (s : Set V)).ncard := rfl

section Merge

variable {r r' : V → V → Prop} {v : V}

theorem classOf_eq_iff (hr : Equivalence r) {u v : V} : classOf r u = classOf r v ↔ r u v := by
  constructor
  · intro heq
    have hmem : v ∈ classOf r u := heq ▸ hr.refl v
    exact hmem
  · intro huv
    ext w
    exact ⟨fun h => hr.trans (hr.symm huv) h, fun h => hr.trans huv h⟩

/-- The class of a vertex of the two classes that become one. -/
theorem classOf_merged (hr : Equivalence r)
    (hr' : ∀ u v, r' u v ↔ r u v ∨ (r u p ∧ r q v) ∨ (r u q ∧ r p v)) (hv : r v p ∨ r v q) :
    classOf r' v = classOf r p ∪ classOf r q := by
  ext u
  show r' v u ↔ r p u ∨ r q u
  rw [hr']
  rcases hv with hv | hv
  · exact ⟨fun h => h.elim (fun h => .inl (hr.trans (hr.symm hv) h))
      (fun h => h.elim (fun h => .inr h.2) fun h => .inl h.2),
      fun h => h.elim (fun h => .inl (hr.trans hv h)) fun h => .inr (.inl ⟨hv, h⟩)⟩
  · exact ⟨fun h => h.elim (fun h => .inr (hr.trans (hr.symm hv) h))
      (fun h => h.elim (fun h => .inr h.2) fun h => .inl h.2),
      fun h => h.elim (fun h => .inr (.inr ⟨hv, h⟩)) fun h => .inl (hr.trans hv h)⟩

/-- The class of another vertex stays. -/
theorem classOf_kept (hr' : ∀ u v, r' u v ↔ r u v ∨ (r u p ∧ r q v) ∨ (r u q ∧ r p v))
    (hvp : ¬ r v p) (hvq : ¬ r v q) : classOf r' v = classOf r v := by
  ext u
  show r' v u ↔ r v u
  rw [hr', or_iff_left]
  rintro (⟨h, -⟩ | ⟨h, -⟩)
  · exact hvp h
  · exact hvq h

/-- The classes after two became one. -/
theorem image_classOf_merged (hr : Equivalence r) {s : Finset V} (hp : p ∈ s)
    (hr' : ∀ u v, r' u v ↔ r u v ∨ (r u p ∧ r q v) ∨ (r u q ∧ r p v)) :
    classOf r' '' (s : Set V) = insert (classOf r p ∪ classOf r q)
      ((classOf r '' (s : Set V) \ {classOf r p}) \ {classOf r q}) := by
  ext c
  simp only [Set.mem_image, Set.mem_insert_iff, Set.mem_sdiff, Set.mem_singleton_iff,
    Finset.mem_coe]
  constructor
  · rintro ⟨v, hv, rfl⟩
    by_cases hjoin : r v p ∨ r v q
    · exact .inl (classOf_merged hr hr' hjoin)
    · obtain ⟨hvp, hvq⟩ := not_or.mp hjoin
      rw [classOf_kept hr' hvp hvq, classOf_eq_iff hr, classOf_eq_iff hr]
      exact .inr ⟨⟨⟨v, hv, rfl⟩, hvp⟩, hvq⟩
  · rintro (rfl | ⟨⟨⟨v, hv, rfl⟩, hvp⟩, hvq⟩)
    · exact ⟨p, hp, classOf_merged hr hr' (.inl (hr.refl p))⟩
    · rw [classOf_eq_iff hr] at hvp hvq
      exact ⟨v, hv, classOf_kept hr' hvp hvq⟩

/-- **Two classes become one.** -/
theorem classCount_merge (hr : Equivalence r) {s : Finset V} (hp : p ∈ s)
    (hq : q ∈ s) (hpq : ¬ r p q)
    (hr' : ∀ u v, r' u v ↔ r u v ∨ (r u p ∧ r q v) ∨ (r u q ∧ r p v)) :
    classCount r s = classCount r' s + 1 := by
  have hfinite : (classOf r '' (s : Set V)).Finite := s.finite_toSet.image _
  have hne : classOf r q ≠ classOf r p := fun h => hpq (hr.symm ((classOf_eq_iff hr).mp h))
  have hnew : classOf r p ∪ classOf r q ∉
      (classOf r '' (s : Set V) \ {classOf r p}) \ {classOf r q} := by
    rintro ⟨⟨⟨v, -, hv⟩, hvp⟩, -⟩
    have hmem : p ∈ classOf r v := hv ▸ Or.inl (hr.refl p)
    exact hvp (hv ▸ (classOf_eq_iff hr).mpr hmem)
  have hmemp : classOf r p ∈ classOf r '' (s : Set V) := Set.mem_image_of_mem _ hp
  have hmemq : classOf r q ∈ classOf r '' (s : Set V) \ {classOf r p} :=
    ⟨Set.mem_image_of_mem _ hq, hne⟩
  have hrest := hfinite.subset (Set.sdiff_subset (t := {classOf r p}))
  rw [classCount_def, classCount_def, image_classOf_merged hr hp hr',
    Set.ncard_insert_of_notMem hnew (hrest.subset Set.sdiff_subset),
    ← Set.ncard_sdiff_singleton_add_one hmemp hfinite,
    ← Set.ncard_sdiff_singleton_add_one hmemq hrest]

end Merge

/-- **One more edge**: it joins two classes, or it closes a circuit. -/
theorem card_spanning (ends : ε → V × V) (s : Finset V) (F : Finset ε)
    (hF : ∀ e ∈ F, (ends e).1 ∈ s ∧ (ends e).2 ∈ s) :
    s.card ≤ F.card + classCount (Joined ends F) s ∧
      (s.card = F.card + classCount (Joined ends F) s ↔ IsEdgeForest ends (F : Set ε)) := by
  classical
  induction F using Finset.induction_on with
  | empty =>
    have hnone : ∀ u v, Joined ends ((∅ : Finset ε) : Set ε) u v ↔ u = v := by
      intro u v
      refine ⟨fun h => ?_, fun h => h ▸ .refl _ u⟩
      refine h.of_equivalence ⟨fun _ => rfl, Eq.symm, Eq.trans⟩ fun e he => ?_
      exact absurd (Finset.mem_coe.mp he) (Finset.notMem_empty e)
    rw [classCount_congr s hnone, classCount_eq, Finset.card_empty, Nat.zero_add,
      Finset.coe_empty]
    exact ⟨le_refl _, iff_of_true rfl (isEdgeForest_empty ends)⟩
  | @insert e F he ih =>
    obtain ⟨hle, hiff⟩ := ih fun f hf => hF f (Finset.mem_insert_of_mem hf)
    rw [Finset.card_insert_of_notMem he, Finset.coe_insert]
    by_cases hjoined : Joined ends (F : Set ε) (ends e).1 (ends e).2
    · have hsame : ∀ u v, Joined ends (insert e (F : Set ε)) u v ↔ Joined ends (F : Set ε) u v := by
        intro u v
        rw [joined_insert_iff]
        refine ⟨?_, .inl⟩
        rintro (h | ⟨h, h'⟩ | ⟨h, h'⟩)
        · exact h
        · exact (h.trans hjoined).trans h'
        · exact (h.trans hjoined.symm).trans h'
      rw [classCount_congr s hsame]
      refine ⟨by omega, iff_of_false (by omega) fun hforest => ?_⟩
      refine hforest e (Set.mem_insert e F) (hjoined.mono fun f hf => ?_)
      exact ⟨Set.mem_insert_of_mem e hf, fun hfe => he (hfe ▸ Finset.mem_coe.mp hf)⟩
    · obtain ⟨hp, hq⟩ := hF e (Finset.mem_insert_self e F)
      have hmerge : classCount (Joined ends (F : Set ε)) s =
          classCount (Joined ends (insert e (F : Set ε))) s + 1 :=
        classCount_merge (Joined.equivalence (F : Set ε)) hp hq hjoined
          fun u v => joined_insert_iff
      have hforest : IsEdgeForest ends (insert e (F : Set ε)) ↔ IsEdgeForest ends (F : Set ε) :=
        ⟨fun h => h.mono (Set.subset_insert e F), fun h => h.insert_edge hjoined⟩
      rw [hforest, ← hiff]
      omega

/-- **A circuit is an edge too many.** -/
theorem hasCircuit_iff_card_lt (ends : ε → V × V) (s : Finset V) (F : Finset ε)
    (hsimple : IsSimple ends (F : Set ε)) (hF : ∀ e ∈ F, (ends e).1 ∈ s ∧ (ends e).2 ∈ s) :
    HasCircuit (Adjacent ends F) ↔
      s.card < F.card + classCount (ReflTransGen (Adjacent ends (F : Set ε))) s := by
  obtain ⟨hle, hiff⟩ := card_spanning ends s F hF
  rw [isEdgeForest_iff_not_hasCircuit hsimple] at hiff
  rw [← classCount_congr s fun u v => joined_iff_reflTransGen]
  constructor
  · intro hcircuit
    exact lt_of_le_of_ne hle fun heq => hiff.mp heq hcircuit
  · intro hlt
    by_contra hnone
    exact absurd (hiff.mpr hnone) hlt.ne

end Foundation
