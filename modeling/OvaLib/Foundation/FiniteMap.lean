import Mathlib.Data.List.Induction
import Mathlib.Data.Set.Card

/-!
# Finite maps listed by entries

A container that stores a finite map keeps its entries in some order, each with a key and a value.
`Lists key val l M` says that the list `l` holds exactly the bindings of the partial map `M`, one
entry for each. The key of an entry is whatever identifies it: a container that compares its keys
with a function uses their equivalence classes.

The entries may be nodes at addresses, pairs, or places of an array, as `key` and `val` are
functions on them. A container of any shape is followed by giving its entries in some order; the map
they determine does not depend on that order, and a change of one entry changes the map at one key.
So the invariant of a container needs a list and `Lists`, and what it does to its links or buckets
is a matter of which entries there are.

## Main results

* `Lists.perm` — the order of the entries does not matter
* `Lists.insert`, `Lists.replace`, `Lists.assign`, `Lists.erase` — what one changed entry does to
  the map
* `Lists.ncard_support` — the map has as many bindings as there are entries
* `Lists.unique` — the entries determine the map
-/

namespace Foundation

/-- The entries `l` are the bindings of `M`, without repetition. -/
structure Lists {ε γ β : Type*} (key : ε → γ) (val : ε → β) (l : List ε) (M : γ → Option β) :
    Prop where
  /-- No key comes twice. -/
  nodup : (l.map key).Nodup
  /-- What is bound is what an entry says. -/
  eq_some_iff : ∀ g b, M g = some b ↔ ∃ e ∈ l, key e = g ∧ val e = b

/-- The keys a partial map binds. -/
def support {γ β : Type*} (M : γ → Option β) : Set γ := {g | (M g).isSome}

section Support

variable {γ β : Type*}

@[simp] theorem support_none : support (fun _ : γ => (none : Option β)) = ∅ :=
  Set.eq_empty_of_forall_notMem fun _ => Bool.false_ne_true

@[simp] theorem support_update_some [DecidableEq γ] (M : γ → Option β) (g : γ) (b : β) :
    support (Function.update M g (some b)) = insert g (support M) := by
  ext g'
  by_cases hg : g' = g
  · subst hg
    simp [support]
  · simp [support, hg]

@[simp] theorem support_update_none [DecidableEq γ] (M : γ → Option β) (g : γ) :
    support (Function.update M g none) = support M \ {g} := by
  ext g'
  by_cases hg : g' = g
  · subst hg
    simp [support]
  · simp [support, hg]

end Support

namespace Lists

variable {ε γ β : Type*} {key : ε → γ} {val : ε → β} {l : List ε} {M : γ → Option β}

theorem nil : Lists key val [] fun _ => none where
  nodup := List.nodup_nil
  eq_some_iff := by simp

theorem perm {l' : List ε} (h : Lists key val l M) (hp : l'.Perm l) : Lists key val l' M where
  nodup := (hp.map key).nodup_iff.mpr h.nodup
  eq_some_iff := fun g b => by simp only [h.eq_some_iff, hp.mem_iff]

theorem of_mem (h : Lists key val l M) {e : ε} (he : e ∈ l) : M (key e) = some (val e) :=
  (h.eq_some_iff _ _).mpr ⟨e, he, rfl, rfl⟩

theorem eq_none_iff (h : Lists key val l M) {g : γ} : M g = none ↔ ∀ e ∈ l, key e ≠ g := by
  constructor
  · rintro hg e he rfl
    rw [h.of_mem he] at hg
    exact Option.some_ne_none _ hg
  · intro hl
    by_contra hg
    obtain ⟨b, hb⟩ := Option.ne_none_iff_exists'.mp hg
    obtain ⟨e, he, hkey, -⟩ := (h.eq_some_iff g b).mp hb
    exact hl e he hkey

theorem unique {M' : γ → Option β} (h : Lists key val l M) (h' : Lists key val l M') : M = M' := by
  funext g
  refine Option.ext fun b => ?_
  rw [h.eq_some_iff, h'.eq_some_iff]

/-- Removing an entry unbinds its key. -/
theorem erase [DecidableEq γ] {e : ε} (h : Lists key val (e :: l) M) :
    Lists key val l (Function.update M (key e) none) := by
  obtain ⟨hnotin, hnodup⟩ := List.nodup_cons.mp (List.map_cons ▸ h.nodup)
  refine ⟨hnodup, fun g b => ?_⟩
  by_cases hg : g = key e
  · subst hg
    simp only [Function.update_self, reduceCtorEq, false_iff, not_exists, not_and]
    intro e' he' hkey
    exact absurd (List.mem_map.mpr ⟨e', he', hkey⟩) hnotin
  · rw [Function.update_of_ne hg, h.eq_some_iff]
    constructor
    · rintro ⟨e', he', rfl, hval⟩
      rcases List.mem_cons.mp he' with rfl | he'
      · exact absurd rfl hg
      · exact ⟨e', he', rfl, hval⟩
    · rintro ⟨e', he', hkey, hval⟩
      exact ⟨e', List.mem_cons_of_mem _ he', hkey, hval⟩

/-- A new entry under an unbound key binds it. -/
theorem insert [DecidableEq γ] (h : Lists key val l M) {e : ε} (he : M (key e) = none) :
    Lists key val (e :: l) (Function.update M (key e) (some (val e))) := by
  have habsent := h.eq_none_iff.mp he
  refine ⟨?_, fun g b => ?_⟩
  · rw [List.map_cons, List.nodup_cons]
    refine ⟨fun hmem => ?_, h.nodup⟩
    obtain ⟨e', he', hkey⟩ := List.mem_map.mp hmem
    exact habsent e' he' hkey
  · by_cases hg : g = key e
    · subst hg
      rw [Function.update_self]
      constructor
      · intro hb
        exact ⟨e, List.mem_cons_self, rfl, Option.some.inj hb⟩
      · rintro ⟨e', he', hkey, hval⟩
        rcases List.mem_cons.mp he' with rfl | he'
        · rw [hval]
        · exact absurd hkey (habsent e' he')
    · rw [Function.update_of_ne hg, h.eq_some_iff]
      constructor
      · rintro ⟨e', he', hkey, hval⟩
        exact ⟨e', List.mem_cons_of_mem _ he', hkey, hval⟩
      · rintro ⟨e', he', rfl, hval⟩
        rcases List.mem_cons.mp he' with rfl | he'
        · exact absurd rfl hg
        · exact ⟨e', he', rfl, hval⟩

/-- Replacing an entry by one with an equal key rebinds that key. -/
theorem replace [DecidableEq γ] {e : ε} (h : Lists key val (e :: l) M) {e' : ε}
    (hkey : key e' = key e) :
    Lists key val (e' :: l) (Function.update M (key e) (some (val e'))) := by
  have hins := h.erase.insert (e := e') (by rw [hkey, Function.update_self])
  rwa [hkey, Function.update_idem] at hins

/-- Binding the entries one after another gives the map. -/
theorem foldl_update [DecidableEq γ] (h : Lists key val l M) :
    l.foldl (fun N e => Function.update N (key e) (some (val e))) (fun _ => none) = M := by
  induction l using List.reverseRecOn generalizing M with
  | nil => exact nil.unique h
  | append_singleton l e ih =>
    have hcons := h.perm (List.perm_append_singleton e l).symm
    rw [List.foldl_concat, ih hcons.erase, Function.update_idem, ← h.of_mem List.mem_concat_self,
      Function.update_eq_self]

/-- Only the keys and values of the entries matter. -/
theorem congr {key' : ε → γ} {val' : ε → β} (h : Lists key val l M)
    (hkey : ∀ e ∈ l, key' e = key e) (hval : ∀ e ∈ l, val' e = val e) : Lists key' val' l M where
  nodup := by
    rw [List.map_congr_left hkey]
    exact h.nodup
  eq_some_iff := fun g b => by
    rw [h.eq_some_iff]
    refine exists_congr fun e => and_congr_right fun he => ?_
    rw [hkey e he, hval e he]

/-- A new entry comes with fields of its own, and those of the others are kept. -/
theorem insertNew [DecidableEq γ] (h : Lists key val l M) (key' : ε → γ) {val' : ε → β}
    (hkey : ∀ a ∈ l, key' a = key a) (hval : ∀ a ∈ l, val' a = val a) {e : ε}
    (he : M (key' e) = none) {l' : List ε} (hl : l'.Perm (e :: l)) :
    Lists key' val' l' (Function.update M (key' e) (some (val' e))) :=
  ((h.congr hkey hval).insert he).perm hl

/-- Assigning the value of an entry rebinds its key. -/
theorem assign [DecidableEq ε] [DecidableEq γ] (h : Lists key val l M) {e : ε} (he : e ∈ l)
    (b : β) : Lists key (Function.update val e b) l (Function.update M (key e) (some b)) where
  nodup := h.nodup
  eq_some_iff := fun g b' => by
    have hinj := List.inj_on_of_nodup_map h.nodup
    by_cases hg : g = key e
    · subst hg
      rw [Function.update_self]
      constructor
      · intro hb
        exact ⟨e, he, rfl, by rw [Function.update_self, Option.some.inj hb]⟩
      · rintro ⟨e', he', hkey, hval⟩
        rw [hinj he' he hkey, Function.update_self] at hval
        rw [hval]
    · rw [Function.update_of_ne hg, h.eq_some_iff]
      refine exists_congr fun e' => and_congr_right fun _ => and_congr_right fun hkey => ?_
      have hne : e' ≠ e := fun heq => hg (by rw [← hkey, heq])
      rw [Function.update_of_ne hne]

theorem support_eq (h : Lists key val l M) : support M = {g | g ∈ l.map key} := by
  ext g
  rw [support, Set.mem_ofPred_eq, Option.isSome_iff_exists]
  simp only [h.eq_some_iff, List.mem_map, Set.mem_ofPred_eq]
  constructor
  · rintro ⟨-, e, he, hkey, -⟩
    exact ⟨e, he, hkey⟩
  · rintro ⟨e, he, hkey⟩
    exact ⟨val e, e, he, hkey, rfl⟩

theorem finite_support (h : Lists key val l M) : (support M).Finite := by
  rw [h.support_eq]
  exact List.finite_toSet _

/-- There are as many bindings as entries. -/
theorem ncard_support (h : Lists key val l M) : (support M).ncard = l.length := by
  classical
  rw [h.support_eq, ← List.coe_toFinset, Set.ncard_coe_finset, List.toFinset_card_of_nodup h.nodup,
    List.length_map]

end Lists

end Foundation
