import OvaLib.Foundation.FiniteMap

/-!
# Finite sets listed by entries

`Enumerates key l S` says that the keys of the list `l` are the members of the set `S`, each once. A
container that rebuilds a set adds the entries of a list one at a time; `addedTo` is what that makes
of the set it starts from, when only the entries with some property are added.

The property is one of entries, while the members are keys. For a set that is built in this way to
be the set of the members with some property, entries with one key have to agree on it; that is the
hypothesis of `addedTo_eq`. Unions, intersections and differences are instances.

## Main results

* `Enumerates.ncard_eq` — a set has as many members as entries
* `Enumerates.addedTo_eq` — adding the members of `S` with a property
* `Lists.enumerates` — the entries of a finite map enumerate the keys it binds
-/

namespace Foundation

/-- A list without repetitions is no longer than a finite set that its entries lie in. -/
theorem length_le_card_of_nodup {γ : Type*} {l : List γ} {s : Finset γ} (hl : l.Nodup)
    (h : ∀ g ∈ l, g ∈ s) : l.length ≤ s.card := by
  have hsub : l ⊆ s.toList := fun g hg => Finset.mem_toList.mpr (h g hg)
  have hlen := (hl.subperm hsub).length_le
  rwa [Finset.length_toList] at hlen

/-- The keys of `l` are the members of `S`, without repetition. -/
structure Enumerates {ε γ : Type*} (key : ε → γ) (l : List ε) (S : Set γ) : Prop where
  nodup : (l.map key).Nodup
  mem_iff : ∀ g, g ∈ S ↔ ∃ e ∈ l, key e = g

/-- `S`, with the keys of the entries of `l` that have the property. -/
def addedTo {ε γ : Type*} (key : ε → γ) (p : γ → Prop) (l : List ε) (S : Set γ) : Set γ :=
  S ∪ {g | p g ∧ ∃ e ∈ l, key e = g}

variable {ε γ : Type*} {key : ε → γ} {p : γ → Prop} {l : List ε} {S T : Set γ}

@[simp] theorem addedTo_nil : addedTo key p [] S = S := by
  simp [addedTo]

theorem addedTo_cons_of_pos {e : ε} (he : p (key e)) :
    addedTo key p (e :: l) S = addedTo key p l (insert (key e) S) := by
  ext g
  simp only [addedTo, Set.mem_union, Set.mem_insert_iff, Set.mem_ofPred_eq, List.mem_cons,
    exists_eq_or_imp]
  constructor
  · rintro (hg | ⟨hp, rfl | hg⟩)
    exacts [.inl (.inr hg), .inl (.inl rfl), .inr ⟨hp, hg⟩]
  · rintro ((rfl | hg) | ⟨hp, hg⟩)
    exacts [.inr ⟨he, .inl rfl⟩, .inl hg, .inr ⟨hp, .inr hg⟩]

theorem addedTo_cons_of_neg {e : ε} (he : ¬ p (key e)) :
    addedTo key p (e :: l) S = addedTo key p l S := by
  ext g
  simp only [addedTo, Set.mem_union, Set.mem_ofPred_eq, List.mem_cons, exists_eq_or_imp]
  refine or_congr_right (and_congr_right fun hp => or_iff_right ?_)
  rintro rfl
  exact he hp

theorem subset_addedTo : S ⊆ addedTo key p l S := Set.subset_union_left

theorem finite_addedTo (hS : S.Finite) : (addedTo key p l S).Finite := by
  refine hS.union ((List.finite_toSet (l.map key)).subset ?_)
  rintro g ⟨-, e, he, rfl⟩
  exact List.mem_map_of_mem he

/-- No intermediate set has more members than the last one. -/
theorem ncard_le_addedTo (hS : S.Finite) : S.ncard ≤ (addedTo key p l S).ncard :=
  Set.ncard_le_ncard subset_addedTo (finite_addedTo hS)

namespace Enumerates

theorem eq_setOf (h : Enumerates key l S) : S = {g | g ∈ l.map key} := by
  ext g
  rw [h.mem_iff, Set.mem_ofPred_eq, List.mem_map]

theorem finite (h : Enumerates key l S) : S.Finite := by
  rw [h.eq_setOf]
  exact List.finite_toSet _

/-- There are as many members as entries. -/
theorem ncard_eq (h : Enumerates key l S) : S.ncard = l.length := by
  classical
  rw [h.eq_setOf, ← List.coe_toFinset, Set.ncard_coe_finset,
    List.toFinset_card_of_nodup h.nodup, List.length_map]

/-- **Adding the members of `T` with a property.** -/
theorem addedTo_eq (h : Enumerates key l T) (p : γ → Prop) (S : Set γ) :
    addedTo key p l S = S ∪ {g | g ∈ T ∧ p g} := by
  ext g
  simp only [addedTo, Set.mem_union, Set.mem_ofPred_eq, ← h.mem_iff]
  rw [and_comm]

end Enumerates

/-- The entries of a finite map enumerate the keys it binds. -/
theorem Lists.enumerates {β : Type*} {val : ε → β} {M : γ → Option β} (h : Lists key val l M) :
    Enumerates key l (support M) where
  nodup := h.nodup
  mem_iff := fun g => by rw [h.support_eq, Set.mem_ofPred_eq, List.mem_map]

end Foundation
