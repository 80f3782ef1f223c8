import OvaLib.Foundation.FiniteSet
import OvaLib.Map.HashMapRefinement
import OvaLib.Sets.Set

/-!
# Both kinds of set are finite sets

The abstract set is a set of comparator classes. `Represents` couples it to a hash set or to a tree
set; everything above the backends is proved from one specification of `add`, `contains`, `remove`,
`size` and `to_list` that both satisfy.

## Two couplings under one

A hash set rests on the refinement of the hash map, and a tree set on that of the red-black tree.
Both of these speak of finite maps from classes of keys to values, and what a set adds is a
statement about the values: a hash set binds its members to the marker, a tree set binds them to
something that is not `NULL`. The cases of `Represents` say so, and no lemma above the five
specifications looks into a map or a tree.

A hash map only asks the comparator whether two keys are equal, and a tree also which of them is
less. The hypotheses are the same for both kinds of set: the comparator is a total preorder, and the
hash function agrees on equal elements and stays in the range it is given.

## Sizes

Sizes are `int`s. The elements of a set are kept beyond `INT_MAX` of them, but then the size is
another number, and the list of the elements is incomplete. Each specification names the bound where
its answer needs one.

## Main results

* `setAddMethod_spec`, `setContainsMethod_eq`, `setRemoveMethod_spec`, `setToListMethod_spec` — one
  call, on either backend
* `addElements_spec` — rebuilding a set from the elements of another
* `sets_are_finite_sets` — everything built by additions, removals and the operations on two sets
-/

namespace OvaLib

namespace Sets

open Foundation
open OvaLib.Map (MapFunctions MapImpl MapEntry entries hashInsert hashGet hashRemove hashSize
  createHashMap)
open OvaLib.Tree (RbTree)

variable {α : Type*}

/-! ## Lists of elements -/

/-- The list that `to_list` starts from has room. -/
theorem createElements_always {n : ℤ} (hn : n ≤ intMax) :
    ∃ out : ArrayList (Option α), createElements .always n = (some out, .always) ∧
      out.items = [] ∧ 0 < out.capacity := by
  rw [createElements]
  have hpos : 0 < (if n > 0 then n else 4) := by split <;> omega
  have hmax : (if n > 0 then n else 4) ≤ (intMax : ℤ) := by
    split
    · exact hn
    · decide
  refine ⟨_, ArrayList.create_always hpos.le hmax, rfl, ?_⟩
  change 0 < (if n > 0 then n else 4).toNat
  omega

/-- Getting the items of a list one after the other. -/
theorem map_get_range (l : ArrayList (Option α)) :
    (List.range l.size).map (fun i : ℕ => (l.get (i : ℤ)).join) = l.items := by
  refine List.ext_getElem (by simp [ArrayList.size]) fun i hi hi' => ?_
  rw [List.getElem_map, List.getElem_range, ArrayList.get, if_neg (by omega), Int.toNat_natCast,
    List.getElem?_eq_getElem hi']
  rfl

theorem allM_map {β γ : Type*} (f : β → γ) (p : γ → Option Bool) (xs : List β) :
    (xs.map f).allM p = xs.allM fun x => p (f x) := by
  induction xs with
  | nil => rfl
  | cons x xs ih => rw [List.map_cons, List.allM, List.allM, ih]

/-! ## Sizes -/

/-- The size grows when the element is new. -/
theorem grew {γ : Type*} {S : Set γ} (hS : S.Finite) (c : γ)
    (hmax : (insert c S).ncard ≤ intMax) [Decidable (c ∉ S)] :
    decide (int32 (insert c S).ncard > int32 S.ncard) = decide (c ∉ S) := by
  by_cases hc : c ∈ S
  · rw [Set.insert_eq_of_mem hc]
    simp [hc]
  · have hcard := Set.ncard_insert_of_notMem hc hS
    rw [int32_natCast hmax, int32_natCast (show S.ncard ≤ intMax by omega), hcard]
    simp [hc]

/-- The size shrinks when the element was there. -/
theorem shrank {γ : Type*} {S : Set γ} (hS : S.Finite) (c : γ) (hmax : S.ncard ≤ intMax)
    [Decidable (c ∈ S)] :
    decide (int32 (S \ {c}).ncard < int32 S.ncard) = decide (c ∈ S) := by
  by_cases hc : c ∈ S
  · have hcard := Set.ncard_sdiff_singleton_add_one hc hS
    rw [int32_natCast hmax, int32_natCast (show (S \ {c}).ncard ≤ intMax by omega), ← hcard]
    simp [hc]
  · rw [Set.sdiff_singleton_eq_self hc]
    simp [hc]

/-! ## The coupling invariant

`Stores` and `Marks` are what a set asks of the finite map of its backend, and `Represents` joins
them to the refinements of the backends. -/

variable {cmp : FnPtr (α → α → ℤ)}

/-- The tree of a tree set binds the members to non-`NULL` values. -/
structure Stores (h : IsComparator cmp.call) (M : Tree.KeyMap h α) (S : Set h.KeyClass) :
    Prop where
  /-- The members are the keys that are bound. -/
  mem_iff : ∀ c, c ∈ S ↔ (M c).isSome
  ne_null : ∀ c, M c ≠ some none

section

variable {h : IsComparator cmp.call} {S : Set h.KeyClass} {t : RbTree α α} {l : List Tree.Addr}
  {M : Tree.KeyMap h α}

/-- The nodes of the tree enumerate the members. -/
theorem Stores.enumerates (hM : Stores h M S) (ht : Tree.Represents h t l M) :
    Enumerates h.keyClass (l.map t.key) S := by
  have hsupport := ht.lists.enumerates
  refine ⟨?_, fun c => ?_⟩
  · rw [List.map_map]
    exact hsupport.nodup
  · rw [hM.mem_iff]
    simpa [support] using hsupport.mem_iff c

theorem Stores.length_eq (hM : Stores h M S) (ht : Tree.Represents h t l M) :
    l.length = S.ncard := by
  rw [(hM.enumerates ht).ncard_eq, List.length_map]

theorem Stores.size_eq (hM : Stores h M S) (ht : Tree.Represents h t l M) :
    t.size = S.ncard := by
  rw [ht.size, hM.length_eq ht]

theorem Stores.join_ne_none_iff (hM : Stores h M S) (c : h.KeyClass) :
    (M c).join ≠ none ↔ c ∈ S := by
  have hnull := hM.ne_null c
  rw [hM.mem_iff]
  cases hval : M c with
  | none => simp
  | some value => cases value <;> simp_all

open Classical in
theorem Stores.insert (hM : Stores h M S) (c : h.KeyClass) (x : α) :
    Stores h (Function.update M c (some (some x))) (insert c S) where
  mem_iff := fun d => by
    by_cases hd : d = c
    · subst hd
      simp
    · rw [Function.update_of_ne hd, ← hM.mem_iff, Set.mem_insert_iff, or_iff_right hd]
  ne_null := fun d => by
    by_cases hd : d = c
    · subst hd
      simp
    · rw [Function.update_of_ne hd]
      exact hM.ne_null d

open Classical in
theorem Stores.erase (hM : Stores h M S) (c : h.KeyClass) :
    Stores h (Function.update M c none) (S \ {c}) where
  mem_iff := fun d => by
    by_cases hd : d = c
    · subst hd
      simp
    · rw [Function.update_of_ne hd, ← hM.mem_iff, Set.mem_sdiff_singleton, and_iff_left hd]
  ne_null := fun d => by
    by_cases hd : d = c
    · subst hd
      simp
    · rw [Function.update_of_ne hd]
      exact hM.ne_null d

end

/-- The functions of the map of a hash set. -/
def mapFunctions (cmp : FnPtr (α → α → ℤ)) (hash : FnPtr (α → ℕ → ℕ)) : MapFunctions α :=
  ⟨hash.call, some cmp.call⟩

variable [DecidableEq α] {hash : FnPtr (α → ℕ → ℕ)}

theorem keyClass_some_eq_iff (hl : (mapFunctions cmp hash).Lawful) (h : IsComparator cmp.call)
    {x y : α} : Map.keyClass hl (some x) = Map.keyClass hl (some y) ↔
      h.keyClass x = h.keyClass y := by
  rw [Map.keyClass_eq_iff, h.keyClass_eq_iff]
  simp [Map.mapKeysEqual, mapFunctions, Map.safeKeyEquals]

theorem keyClass_none_ne (hl : (mapFunctions cmp hash).Lawful) (x : α) :
    Map.keyClass hl none ≠ Map.keyClass hl (some x) := by
  rw [Ne, Map.keyClass_eq_iff]
  simp [Map.mapKeysEqual, mapFunctions, Map.safeKeyEquals]

open Classical in
/-- The map of a hash set binds the members to the marker. -/
structure Marks (hl : (mapFunctions cmp hash).Lawful) (h : IsComparator cmp.call)
    (M : Map.KeyMap hl Marker) (S : Set h.KeyClass) : Prop where
  null : M (Map.keyClass hl none) = none
  eq_ite : ∀ x, M (Map.keyClass hl (some x)) = if h.keyClass x ∈ S then some (some ()) else none

open Classical in
/-- Binding or dropping one key, for a set that differs in that element only. -/
theorem Marks.update {hl : (mapFunctions cmp hash).Lawful} {h : IsComparator cmp.call}
    {M : Map.KeyMap hl Marker} {S S' : Set h.KeyClass} (hM : Marks hl h M S) (x : α)
    {b : Option (Option Marker)} (hself : b = if h.keyClass x ∈ S' then some (some ()) else none)
    (hother : ∀ c, c ≠ h.keyClass x → (c ∈ S' ↔ c ∈ S)) :
    Marks hl h (Function.update M (Map.keyClass hl (some x)) b) S' where
  null := by
    rw [Function.update_of_ne (keyClass_none_ne hl x)]
    exact hM.null
  eq_ite := fun y => by
    by_cases hy : h.keyClass y = h.keyClass x
    · rw [(keyClass_some_eq_iff hl h).mpr hy, Function.update_self, hy, hself]
    · rw [Function.update_of_ne (mt (keyClass_some_eq_iff hl h).mp hy), hM.eq_ite]
      simp only [hother _ hy]

open Classical in
theorem Marks.insert {hl : (mapFunctions cmp hash).Lawful} {h : IsComparator cmp.call}
    {M : Map.KeyMap hl Marker} {S : Set h.KeyClass} (hM : Marks hl h M S) (x : α) :
    Marks hl h (Function.update M (Map.keyClass hl (some x)) (some (some ())))
      (insert (h.keyClass x) S) :=
  hM.update x (if_pos (Set.mem_insert _ _)).symm fun _ hc =>
    Set.mem_insert_iff.trans (or_iff_right hc)

open Classical in
theorem Marks.erase {hl : (mapFunctions cmp hash).Lawful} {h : IsComparator cmp.call}
    {M : Map.KeyMap hl Marker} {S : Set h.KeyClass} (hM : Marks hl h M S) (x : α) :
    Marks hl h (Function.update M (Map.keyClass hl (some x)) none) (S \ {h.keyClass x}) :=
  hM.update x (if_neg fun hx => hx.2 rfl).symm fun _ hc => and_iff_left hc

/-- **The coupling invariant** for both kinds of set. -/
inductive Represents (hl : (mapFunctions cmp hash).Lawful) (h : IsComparator cmp.call) :
    SetType → SetImpl α → Set h.KeyClass → Prop
  | hash {m : MapImpl α Marker} {M : Map.KeyMap hl Marker} {S : Set h.KeyClass}
      (hm : Map.Represents hl m M) (hM : Marks hl h M S) :
      Represents hl h .hash ⟨.hash, cmp, some hash, .hash (mapFunctions cmp hash) m⟩ S
  | tree {t : RbTree α α} {l : List Tree.Addr} {M : Tree.KeyMap h α} {S : Set h.KeyClass}
      (ht : Tree.Represents h t l M) (hM : Stores h M S) :
      Represents hl h .tree ⟨.tree, cmp, none, .tree cmp.call t⟩ S

variable {hl : (mapFunctions cmp hash).Lawful} {h : IsComparator cmp.call}
  {S T : Set h.KeyClass} {type : SetType} {s t : SetImpl α} {fuel : ℕ}

/-- The keys of the entries are elements, and enumerate the members. -/
theorem Marks.enumerates {m : MapImpl α Marker} {M : Map.KeyMap hl Marker}
    (hM : Marks hl h M S) (hm : Map.Represents hl m M) :
    ∃ keys : List α, (entries m).map MapEntry.key = keys.map some ∧
      Enumerates h.keyClass keys S := by
  have hsome : ∀ k ∈ (entries m).map MapEntry.key, k ∈ Set.range some := by
    intro k hk
    obtain ⟨e, he, rfl⟩ := List.mem_map.mp hk
    cases hkey : e.key with
    | some x => exact ⟨x, rfl⟩
    | none =>
      have hbound := hm.lists.of_mem he
      rw [hkey, hM.null] at hbound
      cases hbound
  obtain ⟨keys, hkeys⟩ : (entries m).map MapEntry.key ∈ Set.range (List.map some) := by
    rw [Set.range_list_map]
    exact hsome
  refine ⟨keys, hkeys.symm, ?_, fun c => ?_⟩
  · have hnodup : ((keys.map some).map (Map.keyClass hl)).Nodup := by
      rw [hkeys, List.map_map]
      exact hm.lists.nodup
    rw [List.map_map] at hnodup
    refine List.pairwise_map.mpr ((List.pairwise_map.mp hnodup).imp fun hne heq => hne ?_)
    exact (keyClass_some_eq_iff hl h).mpr heq
  · obtain ⟨x, rfl⟩ := h.exists_keyClass c
    have hbound : h.keyClass x ∈ S ↔ M (Map.keyClass hl (some x)) = some (some ()) := by
      rw [hM.eq_ite]
      simp
    rw [hbound, hm.lists.eq_some_iff]
    constructor
    · rintro ⟨e, he, hkey, -⟩
      obtain ⟨y, hy, hye⟩ := List.mem_map.mp (hkeys ▸ List.mem_map.mpr ⟨e, he, rfl⟩)
      rw [← hye] at hkey
      exact ⟨y, hy, (keyClass_some_eq_iff hl h).mp hkey⟩
    · rintro ⟨y, hy, hyx⟩
      obtain ⟨e, he, hey⟩ := List.mem_map.mp (hkeys ▸ List.mem_map.mpr ⟨y, hy, rfl⟩)
      have hclass : Map.keyClass hl e.key = Map.keyClass hl (some x) := by
        rw [hey]
        exact (keyClass_some_eq_iff hl h).mpr hyx
      refine ⟨e, he, hclass, ?_⟩
      have hdata := hm.lists.of_mem he
      rw [hclass, hM.eq_ite] at hdata
      split at hdata
      · exact (Option.some.inj hdata).symm
      · cases hdata

/-! ## Size -/

theorem Represents.finite (hs : Represents hl h type s S) : S.Finite := by
  cases hs with
  | hash hm hM =>
    obtain ⟨keys, -, hkeys⟩ := hM.enumerates hm
    exact hkeys.finite
  | tree ht hM => exact (hM.enumerates ht).finite

theorem Marks.size_eq {m : MapImpl α Marker} {M : Map.KeyMap hl Marker} (hM : Marks hl h M S)
    (hm : Map.Represents hl m M) : m.size = int32 S.ncard := by
  obtain ⟨keys, heq, hkeys⟩ := hM.enumerates hm
  have hlength := congrArg List.length heq
  rw [List.length_map, List.length_map] at hlength
  rw [hm.size, hlength, hkeys.ncard_eq]

/-- The size, as an `int`. -/
theorem setSizeMethod_eq (hs : Represents hl h type s S) : setSizeMethod s = int32 S.ncard := by
  cases hs with
  | hash hm hM =>
    rw [← hM.size_eq hm]
    rfl
  | tree ht hM =>
    rw [← hM.size_eq ht]
    rfl

/-! ## Membership -/

open Classical in
theorem setContainsMethod_eq (hs : Represents hl h type s S) (x : α) (hfuel : S.ncard < fuel) :
    setContainsMethod fuel s (some x) = some (decide (h.keyClass x ∈ S)) := by
  cases hs with
  | hash hm hM =>
    simp only [setContainsMethod, hashSetContains]
    rw [Map.hashGet_eq hm, hM.eq_ite]
    by_cases hx : h.keyClass x ∈ S <;> simp [hx]
  | tree ht hM =>
    simp only [setContainsMethod, treeSetContains]
    rw [Tree.treeSearchMethod_eq ht x (by rwa [hM.length_eq ht]), Option.map_some]
    exact congrArg some (decide_eq_decide.mpr (hM.join_ne_none_iff _))

/-- A test of elements decides a property of the members. -/
def Tests (keep : Option α → Option Bool) (p : h.KeyClass → Prop) : Prop :=
  ∀ x, ∃ kept, keep (some x) = some kept ∧ (kept = true ↔ p (h.keyClass x))

theorem setContainsMethod_tests (hs : Represents hl h type s S) (hfuel : S.ncard < fuel) :
    Tests (setContainsMethod fuel s) (· ∈ S) := by
  classical
  exact fun x => ⟨_, setContainsMethod_eq hs x hfuel, decide_eq_true_iff⟩

/-! ## Addition and removal -/

open Classical in
/-- **An addition** makes the element a member, and says whether it was not one before as long as
the size is an `int`. -/
theorem setAddMethod_spec (hs : Represents hl h type s S) (x : α) (hfuel : S.ncard < fuel) :
    ∃ added s', setAddMethod fuel .always s (some x) = some (added, s', .always) ∧
      Represents hl h type s' (insert (h.keyClass x) S) ∧
      ((insert (h.keyClass x) S).ncard ≤ intMax → added = decide (h.keyClass x ∉ S)) := by
  have hfinite := hs.finite
  cases hs with
  | @hash m M _ hm hM =>
    obtain ⟨M', hstep, hm'⟩ := Map.hashInsert_spec hm (some x) (some ()) .always
    have hres := Map.hashInsert_always (mapFunctions cmp hash) m (some x) (some ())
    obtain ⟨m', hm₁⟩ : ∃ m', hashInsert (mapFunctions cmp hash) .always m (some x) (some ()) =
        (m', .success, .always) := ⟨_, Prod.ext rfl hres⟩
    rw [hm₁] at hstep hm'
    cases hstep
    have hM' := hM.insert x
    refine ⟨decide (hashSetSize m' > hashSetSize m), _, ?_, .hash hm' hM', fun hmax => ?_⟩
    · simp only [setAddMethod, hashSetAdd, hm₁]
    · rw [hashSetSize, hashSetSize, hashSize, hashSize, hM'.size_eq hm', hM.size_eq hm]
      exact grew hfinite _ hmax
  | @tree t l M _ ht hM =>
    have hlength : l.length < fuel := by rwa [hM.length_eq ht]
    have hsearch := Tree.treeSearchMethod_eq ht x hlength
    by_cases hx : h.keyClass x ∈ S
    · refine ⟨false, ⟨.tree, cmp, none, .tree cmp.call t⟩, ?_, ?_, fun _ => by simp [hx]⟩
      · simp [setAddMethod, treeSetAdd, hsearch, (hM.join_ne_none_iff _).mpr hx]
      · rw [Set.insert_eq_of_mem hx]
        exact .tree ht hM
    · obtain ⟨t', l', hins, ht', -⟩ := Tree.rbTreeInsert_spec ht x (some x) hlength
      have hM' := hM.insert (h.keyClass x) x
      refine ⟨decide (treeSetSize t' > treeSetSize t), _, ?_, .tree ht' hM', fun hmax => ?_⟩
      · have hnone : (M (h.keyClass x)).join = none := by
          by_contra hne
          exact hx ((hM.join_ne_none_iff _).mp hne)
        simp [setAddMethod, treeSetAdd, hsearch, hnone, treeSetInsert, Tree.rbInsertMethod, hins]
      · rw [treeSetSize, treeSetSize, Tree.treeSizeMethod, Tree.treeSizeMethod, hM'.size_eq ht',
          hM.size_eq ht]
        exact grew hfinite _ hmax

open Classical in
/-- **A removal** makes the element no member, and says whether it was one as long as the size is
an `int`. -/
theorem setRemoveMethod_spec (hs : Represents hl h type s S) (x : α) (hfuel : S.ncard < fuel) :
    ∃ removed s', setRemoveMethod fuel s (some x) = some (removed, s') ∧
      Represents hl h type s' (S \ {h.keyClass x}) ∧
      (S.ncard ≤ intMax → removed = decide (h.keyClass x ∈ S)) := by
  have hfinite := hs.finite
  cases hs with
  | @hash m M _ hm hM =>
    obtain ⟨M', hstep, hm'⟩ := Map.hashRemove_spec hm (some x)
    obtain ⟨m', data, hm₁⟩ : ∃ m' data, hashRemove (mapFunctions cmp hash) m (some x) =
        (m', data) := ⟨_, _, rfl⟩
    rw [hm₁] at hstep hm'
    have hdata : data = (M (Map.keyClass hl (some x))).join := by
      cases hstep
      rfl
    have hmap : M' = Function.update M (Map.keyClass hl (some x)) none := by
      cases hstep
      rfl
    subst hmap
    refine ⟨decide (data ≠ none), _, ?_, .hash hm' (hM.erase x), fun _ => ?_⟩
    · simp only [setRemoveMethod, hashSetRemove, hm₁]
    · rw [hdata, hM.eq_ite]
      by_cases hx : h.keyClass x ∈ S <;> simp [hx]
  | @tree t l M _ ht hM =>
    have hlength : l.length < fuel := by rwa [hM.length_eq ht]
    obtain ⟨t', l', hdel, ht', -⟩ := Tree.rbTreeDelete_spec ht x hlength
    have hM' := hM.erase (h.keyClass x)
    refine ⟨decide (treeSetSize t' < treeSetSize t), _, ?_, .tree ht' hM', fun hmax => ?_⟩
    · simp [setRemoveMethod, treeSetRemove, Tree.rbDeleteMethod, hdel]
    · rw [treeSetSize, treeSetSize, Tree.treeSizeMethod, Tree.treeSizeMethod, hM'.size_eq ht',
        hM.size_eq ht]
      exact shrank hfinite _ hmax

/-! ## The list of the elements -/

omit [DecidableEq α] in
theorem foldl_append_keys (keys : List (Option α)) {n : ℤ} (hn : n ≤ intMax)
    (hmax : keys.length ≤ intMax) {out : ArrayList (Option α)}
    (hout : createElements .always n = (some out, .always)) :
    ∃ out' : ArrayList (Option α), keys.foldl append (out, .always) = (out', .always) ∧
      out'.items = keys := by
  obtain ⟨out₁, hcreate, hitems, hpos⟩ := createElements_always (α := α) hn
  obtain rfl : out₁ = out := Option.some.inj (Prod.ext_iff.mp (hcreate.symm.trans hout)).1
  have hroom : out₁.HasRoomFor keys.length .always :=
    .inr ⟨rfl, hpos, by rwa [hitems, List.length_nil, Nat.zero_add]⟩
  obtain ⟨out', hfold, hitems'⟩ := hroom.appendAll
  exact ⟨out', hfold, by rw [hitems', hitems, List.nil_append]⟩

omit [DecidableEq α] in
theorem setToListMethod_hash {impl : MapFunctions α} {m : MapImpl α Marker} {a a' a'' : Allocator}
    {out items : ArrayList (Option α)} (hs : s.backend = .hash impl m)
    (hout : createElements a (hashSetSize m) = (some out, a'))
    (hloop : ((entries m).map MapEntry.key).foldl append (out, a') = (items, a'')) :
    setToListMethod fuel a s = some (some items, a'') := by
  rw [List.foldl_map, entries, List.foldl_flatMap] at hloop
  simp only [setToListMethod, hs, hashSetToList, hout, hloop]

omit [DecidableEq α] in
theorem setToListMethod_tree {l : List Tree.Addr} {M : Tree.KeyMap h α} {u : RbTree α α}
    {a a' a'' : Allocator} {out items : ArrayList (Option α)} (hs : s.backend = .tree cmp.call u)
    (hout : createElements a (treeSetSize u) = (some out, a')) (hu : Tree.Represents h u l M)
    (hfuel : l.length < fuel)
    (hloop : ((l.map u.key).map some).foldl append (out, a') = (items, a'')) :
    setToListMethod fuel a s = some (some items, a'') := by
  rw [List.map_map, List.foldl_map] at hloop
  simp only [Function.comp_apply] at hloop
  simp only [setToListMethod, hs, treeSetToList, hout, Tree.treeInOrderTraverseMethod_eq hu _ hfuel,
    hloop, Option.map_some]

/-- **The list of the elements**, as long as the size is an `int`. -/
theorem setToListMethod_spec (hs : Represents hl h type s S) (hmax : S.ncard ≤ intMax)
    (hfuel : S.ncard < fuel) :
    ∃ items keys, setToListMethod fuel .always s = some (some items, .always) ∧
      items.items = keys.map some ∧ Enumerates h.keyClass keys S := by
  have hsize : int32 S.ncard ≤ intMax := int32_le _
  obtain ⟨out, hout, -, -⟩ := createElements_always (α := α) hsize
  cases hs with
  | @hash m M _ hm hM =>
    obtain ⟨keys, hkeys, henum⟩ := hM.enumerates hm
    obtain ⟨items, hfold, hitems⟩ := foldl_append_keys (keys.map some) hsize
      (by rwa [List.length_map, ← henum.ncard_eq]) hout
    rw [← hM.size_eq hm] at hout
    exact ⟨items, keys, setToListMethod_hash rfl hout (hkeys ▸ hfold), hitems, henum⟩
  | @tree t l M _ ht hM =>
    have henum := hM.enumerates ht
    obtain ⟨items, hfold, hitems⟩ := foldl_append_keys ((l.map t.key).map some) hsize
      (by rwa [List.length_map, ← henum.ncard_eq]) hout
    rw [← hM.size_eq ht] at hout
    exact ⟨items, l.map t.key, setToListMethod_tree rfl hout ht (by rwa [hM.length_eq ht]) hfold,
      hitems, henum⟩

/-! ## Rebuilding

The operations on two sets share a loop: the elements of one set are tested and added to another.
What it leaves is stated for any test of elements that agrees on equal ones. -/

/-- **Adding the elements of a list** that pass a test. -/
theorem foldlM_addKept {p : h.KeyClass → Prop} {keep : Option α → Option Bool}
    (hkeep : Tests keep p) (keys : List α)
    (hs : Represents hl h type s S) (hfuel : (addedTo h.keyClass p keys S).ncard < fuel) :
    ∃ s', (keys.map some).foldlM (addKept fuel keep) (s, .always) = some (s', .always) ∧
      Represents hl h type s' (addedTo h.keyClass p keys S) := by
  induction keys generalizing s S with
  | nil => exact ⟨s, rfl, by rwa [addedTo_nil]⟩
  | cons x keys ih =>
    obtain ⟨kept, hkept, hiff⟩ := hkeep x
    by_cases hx : p (h.keyClass x)
    · obtain rfl := hiff.mpr hx
      rw [addedTo_cons_of_pos hx] at hfuel ⊢
      have hle : S.ncard ≤ (insert (h.keyClass x) S).ncard :=
        Set.ncard_le_ncard (Set.subset_insert _ _) (hs.finite.insert _)
      have hlt : (insert (h.keyClass x) S).ncard < fuel :=
        lt_of_le_of_lt (ncard_le_addedTo (hs.finite.insert _)) hfuel
      obtain ⟨added, s₁, hadd, hs₁, -⟩ := setAddMethod_spec hs x (lt_of_le_of_lt hle hlt)
      obtain ⟨s₂, hfold, hs₂⟩ := ih hs₁ hfuel
      refine ⟨s₂, ?_, hs₂⟩
      rw [List.map_cons, List.foldlM_cons, addKept, hkept]
      simp [hadd, hfold]
    · obtain rfl : kept = false := Bool.eq_false_iff.mpr (mt hiff.mp hx)
      rw [addedTo_cons_of_neg hx] at hfuel ⊢
      obtain ⟨s₂, hfold, hs₂⟩ := ih hs hfuel
      refine ⟨s₂, ?_, hs₂⟩
      rw [List.map_cons, List.foldlM_cons, addKept, hkept]
      simp [hfold]

/-- **Rebuilding a set** from the elements of another that pass a test. -/
theorem addElements_spec {p : h.KeyClass → Prop} {keep : Option α → Option Bool}
    (hkeep : Tests keep p)
    (ht : Represents hl h type t T) (hmax : T.ncard ≤ intMax) (hT : T.ncard < fuel)
    (hs : Represents hl h type s S) (hfuel : (S ∪ {c | c ∈ T ∧ p c}).ncard < fuel) :
    ∃ s', addElements fuel keep t s .always = some (some s', .always) ∧
      Represents hl h type s' (S ∪ {c | c ∈ T ∧ p c}) := by
  obtain ⟨items, keys, hlist, hitems, henum⟩ := setToListMethod_spec ht hmax hT
  rw [← henum.addedTo_eq p S] at hfuel ⊢
  obtain ⟨s', hfold, hs'⟩ := foldlM_addKept hkeep keys hs hfuel
  refine ⟨s', ?_, hs'⟩
  have hloop : (List.range items.size).foldlM
      (fun out (i : ℕ) => addKept fuel keep out (items.get i).join) (s, .always) =
        some (s', .always) := by
    rw [← hfold, ← hitems, ← map_get_range items, List.foldlM_map]
  simp only [addElements, hlist, hloop, Option.bind_eq_bind, Option.bind_some, Option.pure_def]

/-! ## Creation -/

theorem marks_empty (hl : (mapFunctions cmp hash).Lawful) (h : IsComparator cmp.call) :
    Marks hl h (fun _ => none) ∅ where
  null := rfl
  eq_ite := fun x => by simp

omit [DecidableEq α] in
theorem stores_empty (h : IsComparator cmp.call) : Stores h (fun _ => none) ∅ where
  mem_iff := fun c => by simp
  ne_null := fun c => by simp

section

variable [Inhabited α] (ptr : α → UInt64)

/-- **A new set** is empty. A tree set takes no hash function, and ignores one it is given. -/
theorem createSetWithCapacity_spec (hl : (mapFunctions cmp hash).Lawful)
    (h : IsComparator cmp.call) (type : SetType) {hash' : Option (FnPtr (α → ℕ → ℕ))}
    (hhash : type = .hash → hash' = some hash) (capacityHint : ℤ) :
    ∃ s, createSetWithCapacity ptr .always type (some cmp) hash' capacityHint =
      (some s, .always) ∧ Represents hl h type s ∅ := by
  cases type with
  | hash =>
    obtain ⟨m, hm⟩ : ∃ m : MapImpl α Marker,
        createHashMap .always capacityHint = (some m, .always) := ⟨_, rfl⟩
    refine ⟨_, ?_, .hash (Map.createHashMap_represents hl hm) (marks_empty hl h)⟩
    rw [hhash rfl]
    simp [createSetWithCapacity, createState, hashSetFunctions, hashSetCreateImpl, hm,
      mapFunctions]
  | tree =>
    refine ⟨_, ?_, .tree (Tree.represents_createRbTree h) (stores_empty h)⟩
    simp [createSetWithCapacity, createState, treeSetCreateImpl, Tree.createTree]

end

/-! ## Operations on two sets

Each is a test for the loop above: everything for a union, membership in the other set for an
intersection, the opposite for a difference. -/

theorem Represents.fields (hs : Represents hl h type s S) :
    s.type = type ∧ s.cmp = cmp ∧ (type = .hash → s.hash = some hash) := by
  cases hs with
  | hash hm hM => exact ⟨rfl, rfl, fun _ => rfl⟩
  | tree ht hM => exact ⟨rfl, rfl, by simp⟩

theorem setsAreCompatible_eq (hs : Represents hl h type s S) (ht : Represents hl h type t T) :
    setsAreCompatible s t = true := by
  cases hs <;> cases ht <;> simp [setsAreCompatible]

variable [Inhabited α] (ptr : α → UInt64)

/-- The empty set that the result is built from. -/
theorem createLike_spec (hs : Represents hl h type s S) (capacityHint : ℤ) :
    ∃ out, createSetWithCapacity ptr .always s.type (some s.cmp) s.hash capacityHint =
      (some out, .always) ∧ Represents hl h type out ∅ := by
  obtain ⟨htype, hcmp, hhash⟩ := hs.fields
  rw [htype, hcmp]
  exact createSetWithCapacity_spec ptr hl h type hhash capacityHint

/-- **The union.** -/
theorem setUnionWithMethod_spec (hs : Represents hl h type s S) (ht : Represents hl h type t T)
    (hmax : (S ∪ T).ncard ≤ intMax) (hfuel : (S ∪ T).ncard < fuel) :
    ∃ u, setUnionWithMethod ptr fuel .always s t = some (some u, .always) ∧
      Represents hl h type u (S ∪ T) := by
  have hfinite := hs.finite.union ht.finite
  have hS := Set.ncard_le_ncard (Set.subset_union_left (s := S) (t := T)) hfinite
  have hT := Set.ncard_le_ncard (Set.subset_union_right (s := S) (t := T)) hfinite
  obtain ⟨out, hout, ho⟩ := createLike_spec ptr hs
    (int32 (setSizeMethod s + setSizeMethod t))
  have hkeep : Tests (h := h) (fun _ => some true) (fun _ => True) :=
    fun _ => ⟨true, rfl, by simp⟩
  have hone : (∅ : Set h.KeyClass) ∪ {c | c ∈ S ∧ True} = S := by simp
  have htwo : S ∪ {c | c ∈ T ∧ True} = S ∪ T := by simp
  obtain ⟨out₁, hadd₁, ho₁⟩ := addElements_spec hkeep hs (hS.trans hmax)
    (hS.trans_lt hfuel) ho (by rw [hone]; exact hS.trans_lt hfuel)
  rw [hone] at ho₁
  obtain ⟨out₂, hadd₂, ho₂⟩ := addElements_spec hkeep ht (hT.trans hmax) (hT.trans_lt hfuel) ho₁
    (by rwa [htwo])
  rw [htwo] at ho₂
  refine ⟨out₂, ?_, ho₂⟩
  rw [setUnionWithMethod, if_pos (setsAreCompatible_eq hs ht)]
  simp only [hout, hadd₁, hadd₂, Option.bind_eq_bind, Option.bind_some]

/-- **The intersection**, whichever operand is gone through. -/
theorem setIntersectionWithMethod_spec (hs : Represents hl h type s S)
    (ht : Represents hl h type t T) (hmaxS : S.ncard ≤ intMax) (hmaxT : T.ncard ≤ intMax)
    (hS : S.ncard < fuel) (hT : T.ncard < fuel) :
    ∃ u, setIntersectionWithMethod ptr fuel .always s t = some (some u, .always) ∧
      Represents hl h type u (S ∩ T) := by
  have hgo : ∀ {s' t' : SetImpl α} {S' T' : Set h.KeyClass}, Represents hl h type s' S' →
      Represents hl h type t' T' → S'.ncard ≤ intMax → S'.ncard < fuel → T'.ncard < fuel →
      ∀ out, Represents hl h type out ∅ → ∃ u,
        addElements fuel (setContainsMethod fuel t') s' out .always = some (some u, .always) ∧
          Represents hl h type u (S' ∩ T') := by
    intro s' t' S' T' hs' ht' hmax' hS' hT' out ho
    have heq : (∅ : Set h.KeyClass) ∪ {c | c ∈ S' ∧ c ∈ T'} = S' ∩ T' := Set.empty_union _
    have hle := Set.ncard_le_ncard (Set.inter_subset_left (s := S') (t := T')) hs'.finite
    have hadd := addElements_spec (setContainsMethod_tests ht' hT') hs' hmax' hS' ho
      (by rw [heq]; exact hle.trans_lt hS')
    rwa [heq] at hadd
  rw [setIntersectionWithMethod, if_pos (setsAreCompatible_eq hs ht)]
  by_cases hlt : setSizeMethod t < setSizeMethod s
  · obtain ⟨out, hout, ho⟩ := createLike_spec ptr hs (setSizeMethod t)
    rw [if_pos hlt]
    dsimp only
    rw [hout, Set.inter_comm]
    exact hgo ht hs hmaxT hT hS out ho
  · obtain ⟨out, hout, ho⟩ := createLike_spec ptr hs (setSizeMethod s)
    rw [if_neg hlt]
    dsimp only
    rw [hout]
    exact hgo hs ht hmaxS hS hT out ho

/-- **The difference.** -/
theorem setDifferenceWithMethod_spec (hs : Represents hl h type s S)
    (ht : Represents hl h type t T) (hmax : S.ncard ≤ intMax) (hS : S.ncard < fuel)
    (hT : T.ncard < fuel) :
    ∃ u, setDifferenceWithMethod ptr fuel .always s t = some (some u, .always) ∧
      Represents hl h type u (S \ T) := by
  have heq : (∅ : Set h.KeyClass) ∪ {c | c ∈ S ∧ c ∉ T} = S \ T := Set.empty_union _
  have hle := Set.ncard_le_ncard (Set.sdiff_subset (s := S) (t := T)) hs.finite
  obtain ⟨out, hout, ho⟩ := createLike_spec ptr hs (setSizeMethod s)
  have hkeep : Tests (h := h) (fun element => (setContainsMethod fuel t element).map not)
      (· ∉ T) := fun x => by
    obtain ⟨found, hfound, hiff⟩ := setContainsMethod_tests ht hT x
    refine ⟨!found, by simp [hfound], ?_⟩
    simp only at hiff ⊢
    rw [Bool.not_eq_true', ← hiff, Bool.not_eq_true]
  have hadd := addElements_spec hkeep hs hmax hS ho (by rw [heq]; exact hle.trans_lt hS)
  rw [heq] at hadd
  rw [setDifferenceWithMethod, if_pos (setsAreCompatible_eq hs ht), hout]
  exact hadd

omit [Inhabited α] in
open Classical in
/-- **Inclusion.** -/
theorem setIsSubsetOfMethod_eq (hs : Represents hl h type s S) (ht : Represents hl h type t T)
    (hmax : S.ncard ≤ intMax) (hS : S.ncard < fuel) (hT : T.ncard < fuel) :
    setIsSubsetOfMethod fuel .always s t = some (decide (S ⊆ T), .always) := by
  obtain ⟨items, keys, hlist, hitems, henum⟩ := setToListMethod_spec hs hmax hS
  have hall : ∀ xs : List α, (xs.map some).allM (setContainsMethod fuel t) =
      some (decide (∀ x ∈ xs, h.keyClass x ∈ T)) := by
    intro xs
    induction xs with
    | nil => rfl
    | cons x xs ih =>
      rw [List.map_cons, List.allM, setContainsMethod_eq ht x hT]
      by_cases hx : h.keyClass x ∈ T
      · simp [hx, ih]
      · simp [hx]
  have hloop : (List.range items.size).allM
      (fun i : ℕ => setContainsMethod fuel t (items.get i).join) =
        (items.items.allM (setContainsMethod fuel t)) := by
    rw [← allM_map, map_get_range]
  have hsub : (∀ x ∈ keys, h.keyClass x ∈ T) ↔ S ⊆ T := by
    constructor
    · intro hk c hc
      obtain ⟨x, hx, rfl⟩ := (henum.mem_iff c).mp hc
      exact hk x hx
    · intro hsub x hx
      exact hsub ((henum.mem_iff _).mpr ⟨x, hx, rfl⟩)
  simp only [setIsSubsetOfMethod, setsAreCompatible_eq hs ht, hlist, hloop, hitems, hall, hsub,
    Option.map_some, if_true]

end Sets

end OvaLib
