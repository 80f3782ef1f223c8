import Mathlib.Data.List.Nodup
import Mathlib.Logic.Relation
import Mathlib.Tactic.Common

/-!
# Depth-first search

A search has a list of vertices to come to. It skips those it has come to before, and puts the
successors of any other in front of what is left of the list. Whether the list is kept on a stack or
spread over the calls of a recursive function makes no difference: a list is searched by searching
its parts one after the other, and vertices the search has come to may be left out of it.

`Explores` is this search as a relation, without a stack or calls. An implementation of either kind
is followed by saying which list it has in front of it. A recursive one searches the successors of a
vertex in a call and the rest of the list afterwards, which is `append`. An iterative one may leave
out successors that it has come to already when it pushes them, and others may be come to between
the push and the pop; `restore` says that neither changes what is found. Since the relation
determines the order, the two find the vertices in the same order.

## Main results

* `Explores.append`, `Explores.restore` — the two ways to keep the list
* `Explores.unique` — the order is determined by the order of the successors
* `Explores.mem_iff` — the search comes to the vertices in reach
-/

namespace Foundation

open Relation

variable {V : Type*}

/-- A search that has come to `seen`, in this order, and has the list `todo` before it ends with
`seen'`. -/
inductive Explores (heads : V → List V) : List V → List V → List V → Prop
  | nil (seen : List V) : Explores heads seen [] seen
  | skip {seen todo seen' : List V} {v : V} : v ∈ seen → Explores heads seen todo seen' →
      Explores heads seen (v :: todo) seen'
  | enter {seen todo seen' : List V} {v : V} : v ∉ seen →
      Explores heads (seen ++ [v]) (heads v ++ todo) seen' → Explores heads seen (v :: todo) seen'

namespace Explores

variable {heads : V → List V} {seen seen' seen'' todo todo' : List V} {u v : V}

/-- **The calls of a recursive search**: the parts of the list one after the other. -/
theorem append (h : Explores heads seen todo seen') (h' : Explores heads seen' todo' seen'') :
    Explores heads seen (todo ++ todo') seen'' := by
  induction h with
  | nil => exact h'
  | skip hv _ ih => exact .skip hv (ih h')
  | enter hv _ ih =>
    have hnext := ih h'
    rw [List.append_assoc] at hnext
    exact .enter hv hnext

/-- A vertex the search has come to makes no difference. -/
theorem insert_seen (h : Explores heads seen (todo ++ todo') seen') (hv : v ∈ seen) :
    Explores heads seen (todo ++ v :: todo') seen' := by
  generalize hlist : todo ++ todo' = list at h
  induction h generalizing todo with
  | nil =>
    obtain ⟨rfl, rfl⟩ := List.append_eq_nil_iff.mp hlist
    exact .skip hv (.nil _)
  | @skip seen rest seen' u hu hrest ih =>
    cases todo with
    | nil =>
      obtain rfl : todo' = u :: rest := hlist
      exact .skip hv (.skip hu hrest)
    | cons x todo =>
      obtain ⟨rfl, hlist'⟩ := List.cons.inj hlist
      exact .skip hu (ih hv hlist')
  | @enter seen rest seen' u hu hrest ih =>
    cases todo with
    | nil =>
      obtain rfl : todo' = u :: rest := hlist
      exact .skip hv (.enter hu hrest)
    | cons x todo =>
      obtain ⟨rfl, hlist'⟩ := List.cons.inj hlist
      refine .enter hu ?_
      have hmem : v ∈ seen ++ [x] := List.mem_append_left _ hv
      have hsplit : heads x ++ todo ++ todo' = heads x ++ rest := by
        rw [List.append_assoc]
        exact congrArg _ hlist'
      have hnext := ih hmem hsplit
      rwa [List.append_assoc] at hnext

/-- **The stack of an iterative search**: vertices that it has come to need not be put on it. -/
theorem restore (p : V → Bool) : ∀ {l : List V} (front : List V),
    (∀ v ∈ l, p v = false → v ∈ seen) →
    Explores heads seen (front ++ (l.filter p ++ todo)) seen' →
    Explores heads seen (front ++ (l ++ todo)) seen' := by
  intro l
  induction l with
  | nil => exact fun _ _ h => h
  | cons v l ih =>
    intro front hp h
    have hl : ∀ w ∈ l, p w = false → w ∈ seen := fun w hw => hp w (List.mem_cons_of_mem v hw)
    cases hv : p v with
    | true =>
      rw [List.filter_cons_of_pos hv] at h
      have hnext := ih (front ++ [v]) hl (by simpa using h)
      simpa using hnext
    | false =>
      rw [List.filter_cons_of_neg (by simp [hv])] at h
      exact insert_seen (ih front hl h) (hp v List.mem_cons_self hv)

/-- **The order is determined.** -/
theorem unique (h : Explores heads seen todo seen') (h' : Explores heads seen todo seen'') :
    seen' = seen'' := by
  induction h with
  | nil =>
    cases h'
    rfl
  | skip hv _ ih =>
    cases h' with
    | skip _ h' => exact ih h'
    | enter hnot _ => exact absurd hv hnot
  | enter hnot _ ih =>
    cases h' with
    | skip hv _ => exact absurd hv hnot
    | enter _ h' => exact ih h'

/-! ## What a search comes to

A search ends with the vertices in reach, in whatever order it has come to them. -/

theorem mem_of_seen (h : Explores heads seen todo seen') (hv : v ∈ seen) : v ∈ seen' := by
  induction h with
  | nil => exact hv
  | skip _ _ ih => exact ih hv
  | enter _ _ ih => exact ih (List.mem_append_left _ hv)

theorem length_le (h : Explores heads seen todo seen') : seen.length ≤ seen'.length := by
  induction h with
  | nil => exact Nat.le_refl _
  | skip _ _ ih => exact ih
  | enter _ _ ih =>
    rw [List.length_append, List.length_singleton] at ih
    omega

theorem nodup (h : Explores heads seen todo seen') (hseen : seen.Nodup) : seen'.Nodup := by
  induction h with
  | nil => exact hseen
  | skip _ _ ih => exact ih hseen
  | enter hnot _ ih => exact ih (List.concat_eq_append ▸ hseen.concat hnot)

theorem mem_of_todo (h : Explores heads seen todo seen') : ∀ v ∈ todo, v ∈ seen' := by
  induction h with
  | nil => exact fun v hv => absurd hv List.not_mem_nil
  | skip hmem hrest ih =>
    intro v hv
    rcases List.mem_cons.mp hv with rfl | hv
    · exact hrest.mem_of_seen hmem
    · exact ih v hv
  | enter _ hrest ih =>
    intro v hv
    rcases List.mem_cons.mp hv with rfl | hv
    · exact hrest.mem_of_seen (List.mem_append_right _ List.mem_cons_self)
    · exact ih v (List.mem_append_right _ hv)

/-- The successors of the vertices that the search comes to. -/
theorem closed (h : Explores heads seen todo seen') :
    ∀ u ∈ seen', u ∉ seen → ∀ v ∈ heads u, v ∈ seen' := by
  induction h with
  | nil => exact fun u hu hnot => absurd hu hnot
  | skip _ _ ih => exact ih
  | @enter seen todo seen' v _ hrest ih =>
    intro u hu hnot w hw
    by_cases huv : u = v
    · rw [huv] at hw
      exact hrest.mem_of_todo w (List.mem_append_left _ hw)
    · refine ih u hu (fun hmem => ?_) w hw
      rcases List.mem_append.mp hmem with hmem | hmem
      · exact hnot hmem
      · exact huv (List.mem_singleton.mp hmem)

variable {E : V → V → Prop} {P : V → Prop}

/-- A search only comes to what is in reach of the list. -/
theorem reach (hP : ∀ u, P u → ∀ v ∈ heads u, E u v ∧ P v)
    (h : Explores heads seen todo seen') : (∀ t ∈ todo, P t) →
      ∀ v ∈ seen', v ∈ seen ∨ ∃ t ∈ todo, ReflTransGen E t v := by
  induction h with
  | nil => exact fun _ v hv => .inl hv
  | skip _ _ ih =>
    intro htodo v hv
    refine (ih (fun t ht => htodo t (List.mem_cons_of_mem _ ht)) v hv).imp_right ?_
    rintro ⟨t, ht, hreach⟩
    exact ⟨t, List.mem_cons_of_mem _ ht, hreach⟩
  | @enter seen todo seen' x _ _ ih =>
    intro htodo v hv
    have hx := hP x (htodo x List.mem_cons_self)
    have hnext : ∀ t ∈ heads x ++ todo, P t := by
      intro t ht
      rcases List.mem_append.mp ht with ht | ht
      · exact (hx t ht).2
      · exact htodo t (List.mem_cons_of_mem _ ht)
    rcases ih hnext v hv with hmem | ⟨t, ht, hreach⟩
    · rcases List.mem_append.mp hmem with hmem | hmem
      · exact .inl hmem
      · rw [List.mem_singleton.mp hmem]
        exact .inr ⟨x, List.mem_cons_self, .refl⟩
    · rcases List.mem_append.mp ht with ht | ht
      · exact .inr ⟨x, List.mem_cons_self, .head (hx t ht).1 hreach⟩
      · exact .inr ⟨t, List.mem_cons_of_mem _ ht, hreach⟩

/-- **A search from one vertex** comes to the vertices in reach. -/
theorem mem_iff {s : V} {order : List V} (h : Explores heads [] [s] order) (hs : P s)
    (hP : ∀ u, P u → ∀ v ∈ heads u, E u v ∧ P v) (hheads : ∀ u v, E u v → v ∈ heads u) :
    v ∈ order ↔ ReflTransGen E s v := by
  constructor
  · intro hv
    have hsource : ∀ t ∈ [s], P t := fun t ht => List.mem_singleton.mp ht ▸ hs
    obtain ⟨t, ht, hreach⟩ := (h.reach hP hsource v hv).resolve_left List.not_mem_nil
    rwa [List.mem_singleton.mp ht] at hreach
  · intro hreach
    induction hreach with
    | refl => exact h.mem_of_todo s (List.mem_singleton_self s)
    | tail _ huv ih => exact h.closed _ ih List.not_mem_nil _ (hheads _ _ huv)

end Explores

end Foundation
