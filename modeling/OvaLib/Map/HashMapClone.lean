import OvaLib.Map.HashMapRefinement

/-!
# The clones of a hash map

`hash_clone_shallow` and `hash_clone_deep` of `hash_map.c` walk the buckets of their source, to
which they write nothing, and put each entry, or a copy of it, into a new map. The deep clone takes
a `NULL` from the copier for a failure, so that it cannot copy a `NULL` key or value.

## The contract

`map.h` says that a shallow clone shares the pointers with its source, and that a deep clone copies
each pair using the copier; either is `NULL` on failure. A copier is the caller's function. What can
be asked of it is that a copy is equal, where that has a meaning, and that it hands back `NULL` for
`NULL`, as it has nothing to copy. It may keep a state, such as the memory it has handed out.

## When a deep clone is one

`put` takes a `NULL` value, and a `NULL` key too. When the walk comes to such an entry the copier
returns `NULL`, rightly, and the clone is given up as if memory had run out. `hashClones_iff` is the
equivalence: with every allocation succeeding, both clones are copies of their source exactly when
the source holds no `NULL`. It is for the maps a program can have, clones among them.

## Main results

* `hashCloneShallow_spec` — the shallow clone has the bindings of the source
* `hashCloneDeep_spec`, `putCopies_copyable` — the deep clone, without and with a `NULL`
* `hashClones_iff` — when both do what they should
-/

namespace OvaLib

namespace Map

open Foundation

universe u

variable {κ υ : Type*} [DecidableEq κ] {σ : Type u}

/-! ## The model -/

/-- An `element_copier`, on keys and on values. It keeps a state of its own, the memory it has
handed out. -/
structure ElementCopier (σ : Type u) (κ υ : Type*) where
  /-- The copier on a key. -/
  copyKey : Option κ → σ → Option κ × σ
  /-- The copier on a value. -/
  copyData : Option υ → σ → Option υ × σ

/-- The loop of `hash_clone_shallow`, over the entries in the order of the buckets. -/
def putAll (impl : MapFunctions κ) :
    List (MapEntry κ υ) → Allocator → MapImpl κ υ → Option (MapImpl κ υ) × Allocator
  | [], a, copy => (some copy, a)
  | node :: nodes, a, copy =>
    match hashInsert impl a copy node.key node.data with
    | (copy, .success, a) => putAll impl nodes a copy
    | (_, _, a) => (none, a)

/-- `hash_clone_shallow`. -/
def hashCloneShallow (impl : MapFunctions κ) (a : Allocator) (m : MapImpl κ υ) :
    Option (MapImpl κ υ) × Allocator :=
  match createHashMap a m.capacity with
  | (none, a) => (none, a)
  | (some copy, a) => putAll impl (entries m) a copy

/-- The loop of `hash_clone_deep`. -/
def putCopies (impl : MapFunctions κ) (copier : ElementCopier σ κ υ) :
    List (MapEntry κ υ) → σ → Allocator → MapImpl κ υ → Option (MapImpl κ υ) × σ × Allocator
  | [], s, a, copy => (some copy, s, a)
  | node :: nodes, s, a, copy =>
    match copier.copyKey node.key s with
    | (none, s) => (none, s, a)
    | (some keyDup, s) =>
      match copier.copyData node.data s with
      | (none, s) => (none, s, a)
      | (some valDup, s) =>
        match hashInsert impl a copy (some keyDup) (some valDup) with
        | (copy, .success, a) => putCopies impl copier nodes s a copy
        | (_, _, a) => (none, s, a)

/-- `hash_clone_deep`. -/
def hashCloneDeep (impl : MapFunctions κ) (copier : ElementCopier σ κ υ) (s : σ) (a : Allocator)
    (m : MapImpl κ υ) : Option (MapImpl κ υ) × σ × Allocator :=
  match createHashMap a m.capacity with
  | (none, a) => (none, s, a)
  | (some copy, a) => putCopies impl copier (entries m) s a copy

/-- The maps a program can have: new ones, those that calls leave behind, and clones. -/
inductive Reachable (impl : MapFunctions κ) : MapImpl κ υ → Prop
  | create {a a' : Allocator} {capacity : ℤ} {m : MapImpl κ υ} :
      createHashMap a capacity = (some m, a') → Reachable impl m
  | step {m : MapImpl κ υ} (a : Allocator) (call : Call κ υ) : Reachable impl m →
      Reachable impl (step impl a m call).1
  | shallow {m copy : MapImpl κ υ} (a : Allocator) : Reachable impl m →
      (hashCloneShallow impl a m).1 = some copy → Reachable impl copy
  | deep {m copy : MapImpl κ υ} {σ : Type} (copier : ElementCopier σ κ υ) (s : σ) (a : Allocator) :
      Reachable impl m → (hashCloneDeep impl copier s a m).1 = some copy → Reachable impl copy

variable {impl : MapFunctions κ} {h : impl.Lawful}

/-! ## Clones are maps

What is known of new maps and of maps after calls is known of clones too, so that a clone can be
cloned. -/

theorem putAll_represents (nodes : List (MapEntry κ υ)) {m copy : MapImpl κ υ} {N : KeyMap h υ}
    (hm : Represents h m N) {a : Allocator} (hput : (putAll impl nodes a m).1 = some copy) :
    ∃ N', Represents h copy N' := by
  induction nodes generalizing m N a with
  | nil => exact ⟨N, Option.some.inj hput ▸ hm⟩
  | cons node nodes ih =>
    obtain ⟨N', -, hm'⟩ := hashInsert_spec hm node.key node.data a
    rw [putAll] at hput
    split at hput
    · next copy' a' heq =>
      rw [heq] at hm'
      exact ih hm' hput
    · exact absurd hput (by simp)

theorem putCopies_represents (copier : ElementCopier σ κ υ) (nodes : List (MapEntry κ υ))
    {m copy : MapImpl κ υ} {N : KeyMap h υ} (hm : Represents h m N) {s : σ} {a : Allocator}
    (hput : (putCopies impl copier nodes s a m).1 = some copy) : ∃ N', Represents h copy N' := by
  induction nodes generalizing m N s a with
  | nil => exact ⟨N, Option.some.inj hput ▸ hm⟩
  | cons node nodes ih =>
    rw [putCopies] at hput
    split at hput
    · exact absurd hput (by simp)
    · next keyDup s₁ hkey =>
      split at hput
      · exact absurd hput (by simp)
      · next valDup s₂ hval =>
        obtain ⟨N', -, hm'⟩ := hashInsert_spec hm (some keyDup) (some valDup) a
        split at hput
        · next copy' a' heq =>
          rw [heq] at hm'
          exact ih hm' hput
        · exact absurd hput (by simp)

/-- **Every map a program can have** represents a finite map. -/
theorem Reachable.represents (h : impl.Lawful) {m : MapImpl κ υ} (hm : Reachable impl m) :
    ∃ M, Represents h m M := by
  induction hm with
  | create hcreate => exact ⟨_, createHashMap_represents h hcreate⟩
  | step a call _ ih =>
    obtain ⟨M, hm⟩ := ih
    obtain ⟨M', -, hm'⟩ := step_refines hm a call
    exact ⟨M', hm'⟩
  | @shallow m copy a _ hclone ih =>
    rw [hashCloneShallow] at hclone
    split at hclone
    · exact absurd hclone (by simp)
    · next new a' hcreate =>
      exact putAll_represents (entries m) (createHashMap_represents h hcreate) hclone
  | @deep m copy σ copier s a _ hclone ih =>
    rw [hashCloneDeep] at hclone
    split at hclone
    · exact absurd hclone (by simp)
    · next new a' hcreate =>
      exact putCopies_represents copier (entries m) (createHashMap_represents h hcreate) hclone

/-! ## With allocations succeeding -/

/-- The new map of a clone. -/
theorem createHashMap_always (h : impl.Lawful) (capacity : ℤ) :
    ∃ m : MapImpl κ υ, createHashMap .always capacity = (some m, .always) ∧
      Represents h m fun _ => none := by
  have hcreate : ∃ m : MapImpl κ υ, createHashMap .always capacity = (some m, .always) := ⟨_, rfl⟩
  obtain ⟨m, hm⟩ := hcreate
  exact ⟨m, hm, createHashMap_represents h hm⟩

/-! ## The shallow clone -/

open Classical in
theorem putAll_spec (nodes : List (MapEntry κ υ)) {m : MapImpl κ υ} {N : KeyMap h υ}
    (hm : Represents h m N) :
    ∃ copy, putAll impl nodes .always m = (some copy, .always) ∧ Represents h copy
      (nodes.foldl (fun N e => Function.update N (keyClass h e.key) (some e.data)) N) := by
  induction nodes generalizing m N with
  | nil => exact ⟨m, rfl, hm⟩
  | cons node nodes ih =>
    obtain ⟨m', hinsert, hm'⟩ := hashInsert_binds hm node.key node.data
    rw [putAll, hinsert]
    exact ih hm'

/-- **The shallow clone** has the bindings of the source. -/
theorem hashCloneShallow_spec {m : MapImpl κ υ} {M : KeyMap h υ} (hm : Represents h m M) :
    ∃ copy, hashCloneShallow impl .always m = (some copy, .always) ∧ Represents h copy M := by
  classical
  obtain ⟨new, hcreate, hnew⟩ := createHashMap_always (υ := υ) h m.capacity
  obtain ⟨copy, hput, hcopy⟩ := putAll_spec (entries m) hnew
  rw [hm.lists.foldl_update] at hcopy
  refine ⟨copy, ?_, hcopy⟩
  rw [hashCloneShallow, hcreate]
  exact hput

/-! ## The deep clone

The loop goes on as long as entries can be copied, and stops at the first that cannot. -/

/-- The copier returns an equal copy of every key, a copy of every value, and `NULL` for `NULL`. -/
structure ElementCopier.Lawful (copier : ElementCopier σ κ υ) (impl : MapFunctions κ)
    (IsCopy : υ → υ → Prop) : Prop where
  copyKey_some : ∀ k s, ∃ k' s', copier.copyKey (some k) s = (some k', s') ∧
    mapKeysEqual impl (some k') (some k) = true ∧
    ∀ capacity, impl.hashFunc k' capacity = impl.hashFunc k capacity
  copyKey_none : ∀ s, (copier.copyKey none s).1 = none
  copyData_some : ∀ v s, ∃ v' s', copier.copyData (some v) s = (some v', s') ∧ IsCopy v v'
  copyData_none : ∀ s, (copier.copyData none s).1 = none

/-- The same keys are bound, to the copies of their values; `NULL` stays `NULL`. -/
def CopyOf (IsCopy : υ → υ → Prop) (M M' : KeyMap h υ) : Prop :=
  ∀ c, Option.Rel (Option.Rel IsCopy) (M c) (M' c)

/-- An entry that the copier can copy. -/
def Copyable (e : MapEntry κ υ) : Prop := e.key ≠ none ∧ e.data ≠ none

variable {copier : ElementCopier σ κ υ} {IsCopy : υ → υ → Prop}

open Classical in
theorem putCopies_spec (hcopier : copier.Lawful impl IsCopy) {nodes : List (MapEntry κ υ)}
    (hnodes : ∀ e ∈ nodes, Copyable e) {m : MapImpl κ υ} {N N' : KeyMap h υ}
    (hm : Represents h m N') (hcopy : CopyOf IsCopy N N') (s : σ) :
    ∃ copy s' M', putCopies impl copier nodes s .always m = (some copy, s', .always) ∧
      Represents h copy M' ∧ CopyOf IsCopy
        (nodes.foldl (fun N e => Function.update N (keyClass h e.key) (some e.data)) N) M' := by
  induction nodes generalizing m N N' s with
  | nil => exact ⟨m, s, N', rfl, hm, hcopy⟩
  | cons node nodes ih =>
    obtain ⟨hkey, hdata⟩ := hnodes node List.mem_cons_self
    obtain ⟨k, hk⟩ := Option.ne_none_iff_exists'.mp hkey
    obtain ⟨v, hv⟩ := Option.ne_none_iff_exists'.mp hdata
    obtain ⟨k', s₁, hcopyKey, hequal, -⟩ := hcopier.copyKey_some k s
    obtain ⟨v', s₂, hcopyData, hisCopy⟩ := hcopier.copyData_some v s₁
    obtain ⟨m', hinsert, hm'⟩ := hashInsert_binds hm (some k') (some v')
    have hcopy' : CopyOf IsCopy (Function.update N (keyClass h node.key) (some node.data))
        (Function.update N' (keyClass h (some k')) (some (some v'))) := by
      rw [hk, hv, (keyClass_eq_iff h).mpr hequal]
      intro c
      by_cases hc : c = keyClass h (some k)
      · rw [hc, Function.update_self, Function.update_self]
        exact .some (.some hisCopy)
      · rw [Function.update_of_ne hc, Function.update_of_ne hc]
        exact hcopy c
    obtain ⟨copy, s₃, M', hput, hrest⟩ :=
      ih (fun e he => hnodes e (List.mem_cons_of_mem node he)) hm' hcopy' s₂
    refine ⟨copy, s₃, M', ?_, hrest⟩
    rw [putCopies, hk, hcopyKey]
    dsimp only
    rw [hv, hcopyData]
    dsimp only
    rw [hinsert]
    exact hput

/-- **The deep clone of a map without a `NULL`** binds every key to the copy of its value. -/
theorem hashCloneDeep_spec (hcopier : copier.Lawful impl IsCopy) {m : MapImpl κ υ}
    {M : KeyMap h υ} (hm : Represents h m M) (hentries : ∀ e ∈ entries m, Copyable e) (s : σ) :
    ∃ copy s' M', hashCloneDeep impl copier s .always m = (some copy, s', .always) ∧
      Represents h copy M' ∧ CopyOf IsCopy M M' := by
  classical
  obtain ⟨new, hcreate, hnew⟩ := createHashMap_always (υ := υ) h m.capacity
  obtain ⟨copy, s', M', hput, hcopy, hcopyOf⟩ :=
    putCopies_spec hcopier hentries hnew (fun _ => .none) s
  rw [hm.lists.foldl_update] at hcopyOf
  refine ⟨copy, s', M', ?_, hcopy, hcopyOf⟩
  rw [hashCloneDeep, hcreate]
  exact hput

/-- **The deep clone stops at a `NULL`.** -/
theorem putCopies_copyable (hcopier : copier.Lawful impl IsCopy) {nodes : List (MapEntry κ υ)}
    {m copy : MapImpl κ υ} {s : σ} {a : Allocator}
    (hput : (putCopies impl copier nodes s a m).1 = some copy) : ∀ e ∈ nodes, Copyable e := by
  induction nodes generalizing m s a with
  | nil => exact fun e he => absurd he List.not_mem_nil
  | cons node nodes ih =>
    rw [putCopies] at hput
    split at hput
    · exact absurd hput (by simp)
    · next keyDup s₁ hkey =>
      split at hput
      · exact absurd hput (by simp)
      · next valDup s₂ hval =>
        split at hput
        · rintro e he
          rcases List.mem_cons.mp he with rfl | he
          · constructor
            · intro hnull
              have hnone := hcopier.copyKey_none s
              rw [hnull] at hkey
              rw [hkey] at hnone
              exact absurd hnone (by simp)
            · intro hnull
              have hnone := hcopier.copyData_none s₁
              rw [hnull] at hval
              rw [hval] at hnone
              exact absurd hnone (by simp)
          · exact ih hput e he
        · exact absurd hput (by simp)

/-! ## Both clones -/

/-- `clone_shallow` returns a map with the same bindings. -/
def ClonesShallow (h : impl.Lawful) (m : MapImpl κ υ) : Prop :=
  ∃ copy M, hashCloneShallow impl .always m = (some copy, .always) ∧ Represents h m M ∧
    Represents h copy M ∧ hashSize copy = hashSize m

/-- `clone_deep` returns a map of the same size that binds the same keys to the copies. -/
def ClonesDeep (h : impl.Lawful) (copier : ElementCopier σ κ υ) (IsCopy : υ → υ → Prop) (s : σ)
    (m : MapImpl κ υ) : Prop :=
  ∃ copy s' M M', hashCloneDeep impl copier s .always m = (some copy, s', .always) ∧
    Represents h m M ∧ Represents h copy M' ∧ CopyOf IsCopy M M' ∧ hashSize copy = hashSize m

theorem CopyOf.support_eq {M M' : KeyMap h υ} (hcopy : CopyOf IsCopy M M') :
    support M' = support M := by
  ext c
  have hrel : ∀ {x y : Option (Option υ)}, Option.Rel (Option.Rel IsCopy) x y →
      (y.isSome ↔ x.isSome) := fun hxy => by
    cases hxy with
    | some => exact Iff.rfl
    | none => exact Iff.rfl
  exact hrel (hcopy c)

/-- **When the clones are copies of their source**: the shallow clone always is, and the deep clone
exactly when the map holds no `NULL` key and no `NULL` value. -/
theorem hashClones_iff (h : impl.Lawful) {m : MapImpl κ υ} (hm : Reachable impl m)
    (hcopier : copier.Lawful impl IsCopy) (s : σ) :
    (ClonesShallow h m ∧ ClonesDeep h copier IsCopy s m) ↔ ∀ e ∈ entries m, Copyable e := by
  obtain ⟨M, hM⟩ := hm.represents h
  constructor
  · rintro ⟨-, copy, s', M₁, M', hclone, -⟩
    rw [hashCloneDeep] at hclone
    split at hclone
    · exact absurd (congrArg Prod.fst hclone) (by simp)
    · exact putCopies_copyable hcopier (congrArg Prod.fst hclone)
  · intro hentries
    obtain ⟨copy, hclone, hcopy⟩ := hashCloneShallow_spec hM
    obtain ⟨copy', s', M', hclone', hcopy', hcopyOf⟩ := hashCloneDeep_spec hcopier hM hentries s
    refine ⟨⟨copy, M, hclone, hM, hcopy, ?_⟩, copy', s', M, M', hclone', hM, hcopy', hcopyOf, ?_⟩
    · rw [hcopy.hashSize_eq, hM.hashSize_eq]
    · rw [hcopy'.hashSize_eq, hM.hashSize_eq, hcopyOf.support_eq]

/-- The copier that hands out the numbers themselves. -/
def sameNumber : ElementCopier Unit ℕ ℕ := ⟨fun key s => (key, s), fun data s => (data, s)⟩

theorem sameNumber_lawful : sameNumber.Lawful remainderFunctions Eq where
  copyKey_some k s := ⟨k, s, rfl, (mapKeysEqual_equivalence remainderFunctions_lawful).refl _,
    fun _ => rfl⟩
  copyKey_none _ := rfl
  copyData_some v s := ⟨v, s, rfl, rfl⟩
  copyData_none _ := rfl

/-- A new map after one call of `put`. -/
def putOne (key data : Option ℕ) : MapImpl ℕ ℕ :=
  (step remainderFunctions .always ⟨fun _ => [], 20, 0⟩ (.put key data)).1

theorem reachable_putOne (key data : Option ℕ) :
    Reachable remainderFunctions (putOne key data) := by
  have hcreate : createHashMap .always 20 =
    (some (⟨fun _ => [], 20, 0⟩ : MapImpl ℕ ℕ), .always) := rfl
  exact (Reachable.create hcreate).step .always (.put key data)

/-- Three entries: the keys 27 and 7 share a bucket. -/
def putThree (data : Option ℕ) : MapImpl ℕ ℕ :=
  (step remainderFunctions .always
    (step remainderFunctions .always (putOne (some 7) (some 3)) (.put (some 8) data)).1
    (.put (some 27) (some 4))).1

theorem reachable_putThree (data : Option ℕ) : Reachable remainderFunctions (putThree data) :=
  ((reachable_putOne _ _).step .always _).step .always _

/-- With values for all three, both clones are copies; with one `NULL` among them, they are not. -/
theorem hashClones_iff_putThree :
    (ClonesShallow remainderFunctions_lawful (putThree (some 5)) ∧
        ClonesDeep remainderFunctions_lawful sameNumber Eq () (putThree (some 5))) ∧
      ¬(ClonesShallow remainderFunctions_lawful (putThree none) ∧
        ClonesDeep remainderFunctions_lawful sameNumber Eq () (putThree none)) := by
  rw [hashClones_iff remainderFunctions_lawful (reachable_putThree _) sameNumber_lawful (),
    hashClones_iff remainderFunctions_lawful (reachable_putThree _) sameNumber_lawful ()]
  simp only [Copyable]
  decide +kernel

/-- **A `NULL` value** that `put` takes: `clone_deep` returns `NULL`. -/
theorem hashCloneDeep_null :
    Reachable remainderFunctions (putOne (some 7) none) ∧ sameNumber.Lawful remainderFunctions Eq ∧
      (hashCloneDeep remainderFunctions sameNumber () .always (putOne (some 7) none)).1 = none ∧
      ¬ ClonesDeep remainderFunctions_lawful sameNumber Eq () (putOne (some 7) none) := by
  have hnone : (hashCloneDeep remainderFunctions sameNumber () .always
      (putOne (some 7) none)).1 = none :=
    Option.isNone_iff_eq_none.mp (by decide +kernel)
  refine ⟨reachable_putOne _ _, sameNumber_lawful, hnone, ?_⟩
  rintro ⟨copy, s', M, M', hclone, -⟩
  rw [hclone] at hnone
  exact absurd hnone (by simp)

end Map

end OvaLib
