import Mathlib.Data.List.Perm.Lattice
import Mathlib.Data.Quot
import OvaLib.Foundation.FiniteSet
import OvaLib.Map.HashMap

/-!
# The hash map is a finite map

The abstract map binds classes of equal keys to values. `Represents` couples the two: every entry is
in the bucket of its key at the current capacity, the entries of all buckets together list the
bindings of the abstract map, and the size field is their number, as an `int`. Growth only permutes
the entries, so it is invisible to the abstract map whether or not it takes place.

## What the caller owes

The map relies on its function fields. The hash function stays below the capacity, equality by the
comparator is an equivalence, and equal keys have equal hashes at every capacity. Without a
comparator keys are equal when their pointers are, and then only the first is asked for. That is
`Lawful`, the one assumption of the module, and the comparator need not be an order.

## The one choice

On the finite map a `put` of a new key may take place or run out of memory, and `MapStep` leaves
that open: which of them happens depends on the allocator. An insertion that fails answers with
`OVA_ERROR_MEMORY` and changes no binding. Everything else is determined.

## Main results

* `resizeAndRehash_represents` — growth, whether or not the array is there
* `hashInsert_spec`, `hashRemove_spec`, `hashGet_eq` — one call
* `hashMap_refines_map` — a whole run
* `hashMap_size_beyond_intMax` — one more key than an `int` can count
-/

namespace OvaLib

namespace Map

open Foundation

variable {κ υ : Type*} {impl : MapFunctions κ}

/-- What the map asks of its function fields: indices in range, an equivalence on keys (or pointer
equality, when there is no comparator), and equal hashes for equal keys. -/
structure MapFunctions.Lawful (impl : MapFunctions κ) : Prop where
  hash_lt : ∀ k {capacity : ℕ}, 0 < capacity → impl.hashFunc k capacity < capacity
  equivalence : ∀ cmp ∈ impl.keyCompare, Equivalence fun a b => cmp a b = 0
  hash_eq : ∀ cmp ∈ impl.keyCompare, ∀ {a b}, cmp a b = 0 → ∀ {capacity : ℕ}, 0 < capacity →
    impl.hashFunc a capacity = impl.hashFunc b capacity

/-! ## The bucket array -/

theorem bucketAt_lt (h : impl.Lawful) {capacity : ℕ} (hcap : 0 < capacity) (k : Option κ) :
    bucketAt impl capacity k < capacity := by
  cases k with
  | none => exact hcap
  | some k => exact h.hash_lt k hcap

/-- The entries of all buckets. -/
def entries (m : MapImpl κ υ) : List (MapEntry κ υ) := (List.range m.capacity).flatMap m.buckets

/-- A bucket's entries are the ones with its index; the rest of the array is a fixed remainder. -/
theorem exists_rest (buckets : ℕ → List (MapEntry κ υ)) {n i : ℕ} (hi : i < n) :
    ∃ rest, ∀ chain,
      ((List.range n).flatMap (Function.update buckets i chain)).Perm (chain ++ rest) := by
  obtain ⟨before, after, hsplit⟩ := List.append_of_mem (List.mem_range.mpr hi)
  have hnodup : (before ++ i :: after).Nodup := hsplit ▸ List.nodup_range
  obtain ⟨hnot, -⟩ := List.nodup_cons.mp (List.nodup_middle.mp hnodup)
  refine ⟨before.flatMap buckets ++ after.flatMap buckets, fun chain => ?_⟩
  have hsame : ∀ l : List ℕ, i ∉ l →
      l.flatMap (Function.update buckets i chain) = l.flatMap buckets := by
    intro l hl
    refine List.flatMap_congr fun j hj => ?_
    rw [Function.update_of_ne]
    rintro rfl
    exact hl hj
  rw [hsplit, List.flatMap_append, List.flatMap_cons, Function.update_self,
    hsame before fun hb => hnot (List.mem_append_left _ hb),
    hsame after fun ha => hnot (List.mem_append_right _ ha),
    ← List.append_assoc, ← List.append_assoc]
  exact List.perm_append_comm.append_right _

theorem exists_entries_perm (m : MapImpl κ υ) {i : ℕ} (hi : i < m.capacity) :
    ∃ rest, (entries m).Perm (m.buckets i ++ rest) ∧ ∀ chain size,
      (entries { m with buckets := Function.update m.buckets i chain, size := size }).Perm
        (chain ++ rest) := by
  obtain ⟨rest, hrest⟩ := exists_rest m.buckets hi
  refine ⟨rest, ?_, fun chain _ => hrest chain⟩
  have hself := hrest (m.buckets i)
  rwa [Function.update_eq_self] at hself

theorem placed_relink {newCapacity : ℕ} {newBuckets : ℕ → List (MapEntry κ υ)}
    (hplaced : ∀ i, ∀ e ∈ newBuckets i, bucketAt impl newCapacity e.key = i) (node : MapEntry κ υ) :
    ∀ i, ∀ e ∈ relink impl newCapacity newBuckets node i,
      bucketAt impl newCapacity e.key = i := by
  intro i e he
  rw [relink] at he
  by_cases hi : i = bucketAt impl newCapacity node.key
  · subst hi
    rw [Function.update_self] at he
    rcases List.mem_cons.mp he with rfl | he
    exacts [rfl, hplaced _ e he]
  · rw [Function.update_of_ne hi] at he
    exact hplaced i e he

/-- Relinking a list of entries puts each in its bucket, and loses and repeats none. -/
theorem foldl_relink (h : impl.Lawful) {newCapacity : ℕ} (hcap : 0 < newCapacity)
    (nodes : List (MapEntry κ υ)) (newBuckets : ℕ → List (MapEntry κ υ))
    (hplaced : ∀ i, ∀ e ∈ newBuckets i, bucketAt impl newCapacity e.key = i) :
    (∀ i, ∀ e ∈ nodes.foldl (relink impl newCapacity) newBuckets i,
        bucketAt impl newCapacity e.key = i) ∧
      ((List.range newCapacity).flatMap (nodes.foldl (relink impl newCapacity) newBuckets)).Perm
        (nodes ++ (List.range newCapacity).flatMap newBuckets) := by
  induction nodes generalizing newBuckets with
  | nil => exact ⟨hplaced, .refl _⟩
  | cons node nodes ih =>
    obtain ⟨hplaced', hperm⟩ := ih _ (placed_relink hplaced node)
    refine ⟨hplaced', hperm.trans ?_⟩
    have hlt := bucketAt_lt h hcap node.key
    obtain ⟨rest, hrest⟩ := exists_rest newBuckets hlt
    have hself := hrest (newBuckets (bucketAt impl newCapacity node.key))
    rw [Function.update_eq_self] at hself
    have hnew : ((List.range newCapacity).flatMap (relink impl newCapacity newBuckets node)).Perm
        (node :: (List.range newCapacity).flatMap newBuckets) :=
      (hrest _).trans (hself.symm.cons node)
    exact (hnew.append_left nodes).trans List.perm_middle

/-! ## Equal keys -/

variable [DecidableEq κ]

theorem mapKeysEqual_equivalence (h : impl.Lawful) :
    Equivalence fun j k => mapKeysEqual impl j k = true := by
  cases hcmp : impl.keyCompare with
  | none =>
    simp only [mapKeysEqual, hcmp, decide_eq_true_eq]
    exact eq_equivalence
  | some cmp =>
    have heqv := h.equivalence cmp (by rw [hcmp]; rfl)
    simp only [mapKeysEqual, hcmp]
    refine ⟨fun k => ?_, fun {j k} hjk => ?_, fun {j k l} hjk hkl => ?_⟩
    · cases k <;> simp [safeKeyEquals, heqv.refl]
    · cases j <;> cases k <;> simp_all [safeKeyEquals]
      exact heqv.symm hjk
    · cases j <;> cases k <;> cases l <;> simp_all [safeKeyEquals]
      exact heqv.trans hjk hkl

/-- Equal keys. -/
def MapFunctions.Lawful.setoid (h : impl.Lawful) : Setoid (Option κ) :=
  ⟨_, mapKeysEqual_equivalence h⟩

/-- A key up to equality. -/
abbrev KeyClass (h : impl.Lawful) := Quotient h.setoid

/-- The class of a key. -/
def keyClass (h : impl.Lawful) (key : Option κ) : KeyClass h := Quotient.mk h.setoid key

theorem keyClass_eq_iff (h : impl.Lawful) {j k : Option κ} :
    keyClass h j = keyClass h k ↔ mapKeysEqual impl j k = true :=
  Quotient.eq (r := h.setoid)

/-- Equal keys have the same bucket; `NULL` is equal to itself only, and its bucket is 0. -/
theorem bucketAt_congr (h : impl.Lawful) {j k : Option κ} (hjk : mapKeysEqual impl j k = true)
    {capacity : ℕ} (hcap : 0 < capacity) :
    bucketAt impl capacity j = bucketAt impl capacity k := by
  rw [mapKeysEqual] at hjk
  cases hcmp : impl.keyCompare with
  | none =>
    simp only [hcmp, decide_eq_true_eq] at hjk
    rw [hjk]
  | some cmp =>
    simp only [hcmp] at hjk
    cases j <;> cases k <;> simp_all [safeKeyEquals, bucketAt]
    exact h.hash_eq cmp (by rw [hcmp]; rfl) hjk hcap

/-! ## The coupling invariant -/

/-- The finite map a hash map stands for. -/
abbrev KeyMap (h : impl.Lawful) (υ : Type*) := KeyClass h → Option (Option υ)

/-- **The coupling invariant.** -/
structure Represents (h : impl.Lawful) (m : MapImpl κ υ) (M : KeyMap h υ) : Prop where
  capacity_pos : 0 < m.capacity
  /-- Every entry is where a walk for its key looks. -/
  placed : ∀ i, ∀ e ∈ m.buckets i, bucketAt impl m.capacity e.key = i
  /-- No key comes twice, and the entries are the bindings. -/
  lists : Lists (fun e : MapEntry κ υ => keyClass h e.key) MapEntry.data (entries m) M
  size : m.size = int32 (entries m).length

theorem Represents.mapBucketIndex_eq {h : impl.Lawful} {m : MapImpl κ υ} {M : KeyMap h υ}
    (hm : Represents h m M) (key : Option κ) :
    mapBucketIndex impl m key = bucketAt impl m.capacity key :=
  if_neg hm.capacity_pos.ne'

/-- The entries with a key equal to `key` are all in its bucket. -/
theorem Represents.mem_bucket {h : impl.Lawful} {m : MapImpl κ υ} {M : KeyMap h υ}
    (hm : Represents h m M) {e : MapEntry κ υ} {key : Option κ} (he : e ∈ entries m)
    (heq : mapKeysEqual impl e.key key = true) : e ∈ m.buckets (mapBucketIndex impl m key) := by
  obtain ⟨i, -, hi⟩ := List.mem_flatMap.mp he
  rw [hm.mapBucketIndex_eq, ← bucketAt_congr h heq hm.capacity_pos, hm.placed i e hi]
  exact hi

/-! ## Walking a chain

The key is bound exactly if its chain has an entry for it, since every entry is in its place. -/

/-- How the three chain walks end: at no entry, or at the same one. -/
inductive ChainSpec (impl : MapFunctions κ) (key : Option κ) (chain : List (MapEntry κ υ)) : Prop
  | absent (hne : ∀ e ∈ chain, ¬ mapKeysEqual impl e.key key = true)
      (find : findEntry impl key chain = none)
      (assign : ∀ data, assignEntry impl key data chain = none)
      (unlink : unlinkEntry impl key chain = none)
  | found (before : List (MapEntry κ υ)) (e : MapEntry κ υ) (after : List (MapEntry κ υ))
      (split : chain = before ++ e :: after) (heq : mapKeysEqual impl e.key key = true)
      (find : findEntry impl key chain = some e)
      (assign : ∀ data, assignEntry impl key data chain =
        some (before ++ { e with data := data } :: after))
      (unlink : unlinkEntry impl key chain = some (e, before ++ after))

theorem chainSpec (impl : MapFunctions κ) (key : Option κ) (chain : List (MapEntry κ υ)) :
    ChainSpec impl key chain := by
  induction chain with
  | nil => exact .absent (by simp) rfl (fun _ => rfl) rfl
  | cons node next ih =>
    by_cases heq : mapKeysEqual impl node.key key = true
    · exact .found [] node next rfl heq (by simp [findEntry, heq]) (by simp [assignEntry, heq])
        (by simp [unlinkEntry, heq])
    · cases ih with
      | absent hne hfind hassign hunlink =>
        refine .absent (fun e he => ?_) (by simp [findEntry, heq, hfind])
          (by simp [assignEntry, heq, hassign]) (by simp [unlinkEntry, heq, hunlink])
        rcases List.mem_cons.mp he with rfl | he
        exacts [heq, hne e he]
      | found before e after hsplit heq' hfind hassign hunlink =>
        exact .found (node :: before) e after (by rw [hsplit]; rfl) heq'
          (by simp [findEntry, heq, hfind]) (by simp [assignEntry, heq, hassign])
          (by simp [unlinkEntry, heq, hunlink])

/-! ## Growth -/

theorem safeDoubleCapacity_pos {n : ℕ} (hn : 0 < n) : 0 < safeDoubleCapacity n := by
  rw [safeDoubleCapacity, intMax]
  split <;> omega

/-- **Growth keeps every binding**, whether or not the larger array is there. -/
theorem resizeAndRehash_represents {h : impl.Lawful} {m : MapImpl κ υ} {M : KeyMap h υ}
    (hm : Represents h m M) (a : Allocator) :
    Represents h (resizeAndRehash impl a m).1 M := by
  rw [resizeAndRehash]
  simp only
  split
  · exact hm
  · cases ha : a.alloc with
    | mk ok a' =>
      cases ok with
      | false => exact hm
      | true =>
        have hcap := safeDoubleCapacity_pos hm.capacity_pos
        obtain ⟨hplaced, hperm⟩ := foldl_relink h hcap (entries m)
          (fun _ => ([] : List (MapEntry κ υ))) (by simp)
        rw [entries, List.foldl_flatMap] at hplaced hperm
        have hnil : ∀ n, (List.range n).flatMap (fun _ => ([] : List (MapEntry κ υ))) = [] :=
          fun n => by simp
        have hperm' := hperm
        rw [hnil, List.append_nil] at hperm'
        refine ⟨hcap, hplaced, hm.lists.perm hperm', hm.size.trans ?_⟩
        exact congrArg (fun n : ℕ => int32 n) hperm'.length_eq.symm

/-! ## One call -/

/-- A call. -/
inductive Call (κ υ : Type*)
  | put (key : Option κ) (data : Option υ)
  | get (key : Option κ)
  | remove (key : Option κ)
  | clear

/-- What a call returns. -/
inductive Response (υ : Type*)
  | code (error : ErrorCode)
  | data (value : Option υ)
  | unit

/-- The model's step. -/
def step (impl : MapFunctions κ) (a : Allocator) (m : MapImpl κ υ) :
    Call κ υ → MapImpl κ υ × Response υ × Allocator
  | .put key data =>
    let (m', error, a') := hashInsert impl a m key data
    (m', .code error, a')
  | .get key => (m, .data (hashGet impl m key), a)
  | .remove key =>
    let (m', value) := hashRemove impl m key
    (m', .data value, a)
  | .clear => (hashClear m, .unit, a)

/-- A run of the model: the state it ends in and the responses on the way. -/
def run (impl : MapFunctions κ) :
    Allocator → MapImpl κ υ → List (Call κ υ) → MapImpl κ υ × List (Response υ)
  | _, m, [] => (m, [])
  | a, m, call :: calls =>
    let (m', response, a') := step impl a m call
    ((run impl a' m' calls).1, response :: (run impl a' m' calls).2)

open Classical in
/-- What a call does to the finite map, with what it answers. The one choice left open is whether
a `put` of an unbound key runs out of memory. -/
inductive MapStep (h : impl.Lawful) (M : KeyMap h υ) : Call κ υ → Response υ → KeyMap h υ → Prop
  | put (key : Option κ) (data : Option υ) :
      MapStep h M (.put key data) (.code .success) (Function.update M (keyClass h key) (some data))
  | putFailed (key : Option κ) (data : Option υ) (habsent : M (keyClass h key) = none) :
      MapStep h M (.put key data) (.code .errorMemory) M
  | get (key : Option κ) : MapStep h M (.get key) (.data (M (keyClass h key)).join) M
  | remove (key : Option κ) :
      MapStep h M (.remove key) (.data (M (keyClass h key)).join)
        (Function.update M (keyClass h key) none)
  | clear : MapStep h M .clear .unit fun _ => none

/-- A run on the finite map. -/
inductive MapRun (h : impl.Lawful) :
    KeyMap h υ → List (Call κ υ) → List (Response υ) → KeyMap h υ → Prop
  | nil (M : KeyMap h υ) : MapRun h M [] [] M
  | cons {M M' M'' : KeyMap h υ} {call : Call κ υ} {response : Response υ} {calls : List (Call κ υ)}
      {responses : List (Response υ)} (head : MapStep h M call response M')
      (tail : MapRun h M' calls responses M'') :
      MapRun h M (call :: calls) (response :: responses) M''

/-- A key no entry of its bucket equals is unbound. -/
theorem Represents.eq_none {h : impl.Lawful} {m : MapImpl κ υ} {M : KeyMap h υ}
    (hm : Represents h m M) {key : Option κ}
    (hne : ∀ e ∈ m.buckets (mapBucketIndex impl m key), ¬ mapKeysEqual impl e.key key = true) :
    M (keyClass h key) = none := by
  refine hm.lists.eq_none_iff.mpr fun e he heq => ?_
  have hequal := (keyClass_eq_iff h).mp heq
  exact hne e (hm.mem_bucket he hequal) hequal

/-- An entry of the bucket with an equal key holds the value. -/
theorem Represents.eq_some {h : impl.Lawful} {m : MapImpl κ υ} {M : KeyMap h υ}
    (hm : Represents h m M) {key : Option κ} {e : MapEntry κ υ}
    (he : e ∈ m.buckets (mapBucketIndex impl m key)) (heq : mapKeysEqual impl e.key key = true) :
    M (keyClass h key) = some e.data := by
  have hlt : mapBucketIndex impl m key < m.capacity := by
    rw [hm.mapBucketIndex_eq]
    exact bucketAt_lt h hm.capacity_pos key
  have hmem : e ∈ entries m := List.mem_flatMap.mpr ⟨_, List.mem_range.mpr hlt, he⟩
  rw [← (keyClass_eq_iff h).mpr heq]
  exact hm.lists.of_mem hmem

theorem hashGet_eq {h : impl.Lawful} {m : MapImpl κ υ} {M : KeyMap h υ} (hm : Represents h m M)
    (key : Option κ) : hashGet impl m key = (M (keyClass h key)).join := by
  rw [hashGet]
  cases chainSpec impl key (m.buckets (mapBucketIndex impl m key)) with
  | absent hne hfind =>
    rw [hfind, hm.eq_none hne]
    rfl
  | found before e after hsplit heq hfind =>
    rw [hfind, hm.eq_some (by rw [hsplit]; simp) heq]
    rfl

/-- Replacing the chain of a key's bucket, when the new chain has its entries in place. -/
theorem Represents.update_bucket {h : impl.Lawful} {m : MapImpl κ υ} {M M' : KeyMap h υ}
    (hm : Represents h m M) (key : Option κ) {chain : List (MapEntry κ υ)} {size : ℤ}
    (hplaced : ∀ e ∈ chain, bucketAt impl m.capacity e.key = bucketAt impl m.capacity key)
    (hlists : ∀ rest, (entries m).Perm (m.buckets (mapBucketIndex impl m key) ++ rest) →
      Lists (fun e : MapEntry κ υ => keyClass h e.key) MapEntry.data (chain ++ rest) M' ∧
        size = int32 (chain ++ rest).length) :
    Represents h { m with
      buckets := Function.update m.buckets (mapBucketIndex impl m key) chain,
      size := size } M' := by
  have hlt : mapBucketIndex impl m key < m.capacity := by
    rw [hm.mapBucketIndex_eq]
    exact bucketAt_lt h hm.capacity_pos key
  obtain ⟨rest, hold, hnew⟩ := exists_entries_perm m hlt
  obtain ⟨hl, hsize⟩ := hlists rest hold
  refine ⟨hm.capacity_pos, fun i e he => ?_, hl.perm (hnew chain size),
    hsize.trans (congrArg (fun n : ℕ => int32 n) (hnew chain size).length_eq.symm)⟩
  by_cases hi : i = mapBucketIndex impl m key
  · have hmem : e ∈ chain := by simpa [hi] using he
    rw [hi, hm.mapBucketIndex_eq]
    exact hplaced e hmem
  · have hmem : e ∈ m.buckets i := by simpa [hi] using he
    exact hm.placed i e hmem

theorem Represents.placed_bucket {h : impl.Lawful} {m : MapImpl κ υ} {M : KeyMap h υ}
    (hm : Represents h m M) {key : Option κ} {e : MapEntry κ υ}
    (he : e ∈ m.buckets (mapBucketIndex impl m key)) :
    bucketAt impl m.capacity e.key = bucketAt impl m.capacity key :=
  (hm.placed _ e he).trans (hm.mapBucketIndex_eq key)

theorem assignOrPush_spec {h : impl.Lawful} {m : MapImpl κ υ} {M : KeyMap h υ}
    (hm : Represents h m M) (key : Option κ) (data : Option υ) (a : Allocator) :
    ∃ M', MapStep h M (.put key data) (.code (assignOrPush impl a m key data).2.1) M' ∧
      Represents h (assignOrPush impl a m key data).1 M' := by
  classical
  rw [assignOrPush]
  cases chainSpec impl key (m.buckets (mapBucketIndex impl m key)) with
  | found before e after hsplit heq hfind hassign hunlink =>
    simp only [hassign]
    refine ⟨_, .put key data, hm.update_bucket key (fun e' he' => ?_) fun rest hperm => ?_⟩
    · have hmem : ∀ e'' ∈ before ++ e :: after,
          bucketAt impl m.capacity e''.key = bucketAt impl m.capacity key :=
        fun e'' h'' => hm.placed_bucket (by rw [hsplit]; exact h'')
      simp only [List.mem_append, List.mem_cons] at he' hmem
      rcases he' with hb | rfl | ha
      exacts [hmem e' (.inl hb), hmem e (.inr (.inl rfl)), hmem e' (.inr (.inr ha))]
    · rw [hsplit] at hperm
      have hfront : ∀ x : MapEntry κ υ, ((before ++ x :: after) ++ rest).Perm
          (x :: ((before ++ after) ++ rest)) :=
        fun x => List.perm_middle.append_right rest
      have hl := hm.lists.perm (hperm.trans (hfront e)).symm
      rw [← (keyClass_eq_iff h).mpr heq]
      have hrep := hl.replace (show keyClass h (MapEntry.mk e.key data).key = _ from rfl)
      refine ⟨hrep.perm (hfront _), ?_⟩
      rw [hm.size, hperm.length_eq]
      simp
  | absent hne hfind hassign hunlink =>
    have habsent := hm.eq_none hne
    simp only [hassign]
    cases halloc : a.alloc with
    | mk ok a' =>
      cases ok with
      | false => exact ⟨M, .putFailed key data habsent, hm⟩
      | true =>
        refine ⟨_, .put key data, hm.update_bucket key (fun e' he' => ?_) fun rest hperm => ?_⟩
        · rcases List.mem_cons.mp he' with rfl | he'
          exacts [rfl, hm.placed_bucket he']
        · refine ⟨(hm.lists.perm hperm.symm).insert (e := ⟨key, data⟩) habsent, ?_⟩
          rw [hm.size, int32_int32_add, hperm.length_eq, List.cons_append, List.length_cons,
            Nat.cast_succ]

/-- **A put** binds its key, or leaves every binding when it runs out of memory. -/
theorem hashInsert_spec {h : impl.Lawful} {m : MapImpl κ υ} {M : KeyMap h υ}
    (hm : Represents h m M) (key : Option κ) (data : Option υ) (a : Allocator) :
    ∃ M', MapStep h M (.put key data) (.code (hashInsert impl a m key data).2.1) M' ∧
      Represents h (hashInsert impl a m key data).1 M' := by
  rw [hashInsert]
  split
  · exact assignOrPush_spec (resizeAndRehash_represents hm a) key data _
  · exact assignOrPush_spec hm key data a

/-- With allocations succeeding, a put succeeds. -/
theorem hashInsert_always (impl : MapFunctions κ) (m : MapImpl κ υ) (key : Option κ)
    (data : Option υ) :
    (hashInsert impl .always m key data).2 = (.success, .always) := by
  have hpush : ∀ m' : MapImpl κ υ,
      (assignOrPush impl .always m' key data).2 = (.success, .always) := by
    intro m'
    unfold assignOrPush
    dsimp only
    split
    · rfl
    · rfl
  rw [hashInsert]
  split
  · rw [resizeAndRehash]
    dsimp only
    split
    · exact hpush _
    · exact hpush _
  · exact hpush m

open Classical in
/-- A put binds its key. -/
theorem hashInsert_binds {h : impl.Lawful} {m : MapImpl κ υ} {M : KeyMap h υ}
    (hm : Represents h m M) (key : Option κ) (data : Option υ) :
    ∃ m', hashInsert impl .always m key data = (m', .success, .always) ∧
      Represents h m' (Function.update M (keyClass h key) (some data)) := by
  have halways := hashInsert_always impl m key data
  obtain ⟨M', hstep, hm'⟩ := hashInsert_spec hm key data .always
  rw [halways] at hstep
  cases hstep with
  | put => exact ⟨_, Prod.ext rfl halways, hm'⟩

/-- **A removal** returns the bound value and unbinds the key. -/
theorem hashRemove_spec {h : impl.Lawful} {m : MapImpl κ υ} {M : KeyMap h υ}
    (hm : Represents h m M) (key : Option κ) :
    ∃ M', MapStep h M (.remove key) (.data (hashRemove impl m key).2) M' ∧
      Represents h (hashRemove impl m key).1 M' := by
  classical
  rw [hashRemove]
  cases chainSpec impl key (m.buckets (mapBucketIndex impl m key)) with
  | absent hne hfind hassign hunlink =>
    have habsent := hm.eq_none hne
    have hsame : Function.update M (keyClass h key) none = M := by
      rw [← habsent, Function.update_eq_self]
    have hstep := MapStep.remove (M := M) key
    rw [habsent, hsame] at hstep
    simp only [hunlink]
    exact ⟨M, hstep, hm⟩
  | found before e after hsplit heq hfind hassign hunlink =>
    have hstep := MapStep.remove (M := M) key
    have hmem : e ∈ m.buckets (mapBucketIndex impl m key) := by rw [hsplit]; simp
    rw [hm.eq_some hmem heq] at hstep
    simp only [hunlink]
    refine ⟨_, hstep, hm.update_bucket key (fun e' he' => ?_) fun rest hperm => ?_⟩
    · refine hm.placed_bucket ?_
      rw [hsplit]
      rcases List.mem_append.mp he' with hb | ha
      exacts [List.mem_append_left _ hb, List.mem_append_right _ (List.mem_cons_of_mem _ ha)]
    · rw [hsplit] at hperm
      have hfront : ((before ++ e :: after) ++ rest).Perm (e :: ((before ++ after) ++ rest)) :=
        List.perm_middle.append_right rest
      have hl := hm.lists.perm (hperm.trans hfront).symm
      rw [← (keyClass_eq_iff h).mpr heq]
      refine ⟨hl.erase, ?_⟩
      rw [hm.size, int32_int32_sub, (hperm.trans hfront).length_eq, List.length_cons,
        Nat.cast_succ, add_sub_cancel_right]

theorem hashClear_represents {h : impl.Lawful} {m : MapImpl κ υ} {M : KeyMap h υ}
    (hm : Represents h m M) : Represents h (hashClear m) fun _ => none := by
  have hentries : entries (hashClear m) = [] := by
    refine List.flatMap_eq_nil_iff.mpr fun i hi => ?_
    have hlt : i < m.capacity := List.mem_range.mp hi
    simp [hashClear, hlt]
  refine ⟨hm.capacity_pos, fun i e he => ?_, by rw [hentries]; exact Lists.nil,
    by rw [hentries]; exact int32_zero.symm⟩
  by_cases hi : i < m.capacity
  · simp [hashClear, hi] at he
  · exact hm.placed i e (by simpa [hashClear, hi] using he)

theorem step_refines {h : impl.Lawful} {m : MapImpl κ υ} {M : KeyMap h υ} (hm : Represents h m M)
    (a : Allocator) (call : Call κ υ) :
    ∃ M', MapStep h M call (step impl a m call).2.1 M' ∧
      Represents h (step impl a m call).1 M' := by
  cases call with
  | put key data => exact hashInsert_spec hm key data a
  | get key =>
    have hstep := MapStep.get (M := M) key
    rw [← hashGet_eq hm] at hstep
    exact ⟨M, hstep, hm⟩
  | remove key => exact hashRemove_spec hm key
  | clear => exact ⟨_, .clear, hashClear_represents hm⟩

/-! ## Whole runs -/

/-- **A run of the model simulates a run on the finite map.** -/
theorem run_refines {h : impl.Lawful} (calls : List (Call κ υ)) {m : MapImpl κ υ} {M : KeyMap h υ}
    (hm : Represents h m M) (a : Allocator) :
    ∃ M', MapRun h M calls (run impl a m calls).2 M' ∧ Represents h (run impl a m calls).1 M' := by
  induction calls generalizing m M a with
  | nil => exact ⟨M, .nil M, hm⟩
  | cons call calls ih =>
    obtain ⟨M', hstep, hm'⟩ := step_refines hm a call
    obtain ⟨M'', hrun, hm''⟩ := ih hm' (step impl a m call).2.2
    exact ⟨M'', .cons hstep hrun, hm''⟩

theorem createHashMap_represents (h : impl.Lawful) {a a' : Allocator} {capacity : ℤ}
    {m : MapImpl κ υ} (hm : createHashMap a capacity = (some m, a')) :
    Represents h m fun _ => none := by
  have hempty : ∃ capacity', 0 < capacity' ∧ m = ⟨fun _ => [], capacity', 0⟩ := by
    unfold createHashMap at hm
    simp only at hm
    split at hm
    · simp at hm
    · split at hm
      · simp at hm
      · split at hm
        · simp at hm
        · simp only [Prod.mk.injEq, Option.some.injEq] at hm
          refine ⟨_, ?_, hm.1.symm⟩
          rw [initialCapacity]
          split <;> omega
  obtain ⟨capacity', hpos, rfl⟩ := hempty
  have hentries : entries (⟨fun _ => [], capacity', 0⟩ : MapImpl κ υ) = [] := by simp [entries]
  exact ⟨hpos, by simp, by rw [hentries]; exact Lists.nil,
    by rw [hentries]; exact int32_zero.symm⟩

/-- The size is the number of bindings, as an `int`. -/
theorem Represents.hashSize_eq {h : impl.Lawful} {m : MapImpl κ υ} {M : KeyMap h υ}
    (hm : Represents h m M) : hashSize m = int32 (support M).ncard := by
  rw [hashSize, hm.lists.ncard_support, hm.size]

/-- With allocations succeeding, no call runs out of memory. -/
theorem step_always (impl : MapFunctions κ) (m : MapImpl κ υ) (call : Call κ υ) :
    (step impl .always m call).2.1 ≠ .code .errorMemory ∧
      (step impl .always m call).2.2 = .always := by
  cases call with
  | put key data =>
    have halways := hashInsert_always impl m key data
    rw [Prod.ext_iff] at halways
    simp [step, halways]
  | get key => simp [step]
  | remove key => simp [step]
  | clear => simp [step]

theorem run_always (calls : List (Call κ υ)) (m : MapImpl κ υ) :
    .code .errorMemory ∉ (run impl .always m calls).2 := by
  induction calls generalizing m with
  | nil => exact List.not_mem_nil
  | cons call calls ih =>
    obtain ⟨hcode, halways⟩ := step_always impl m call
    have hrun : (run impl .always m (call :: calls)).2 = (step impl .always m call).2.1 ::
        (run impl (step impl .always m call).2.2 (step impl .always m call).1 calls).2 := rfl
    rw [hrun, halways, List.mem_cons, not_or]
    exact ⟨hcode.symm, ih _⟩

/-- **The hash map is a finite map.** Whatever allocations fail, the calls of a run answer as on a
finite map on classes of equal keys, and none of them runs out of memory when no allocation fails.
In the state the run leaves, every entry is in the bucket of its key, no two entries have equal
keys, and the size is the number of bindings, as long as an `int` can count them. -/
theorem hashMap_refines_map (h : impl.Lawful) (a a' : Allocator) (capacity : ℤ) (m : MapImpl κ υ)
    (hcreate : createHashMap a capacity = (some m, a')) (calls : List (Call κ υ)) :
    let m' := (run impl a' m calls).1
    ∃ M, MapRun h (fun _ => none) calls (run impl a' m calls).2 M ∧
      (∀ key, hashGet impl m' key = (M (keyClass h key)).join) ∧
      (a' = .always → .code .errorMemory ∉ (run impl a' m calls).2) ∧
      (support M).Finite ∧ ((support M).ncard ≤ intMax → hashSize m' = (support M).ncard) ∧
      (∀ i, ∀ e ∈ m'.buckets i, i < m'.capacity ∧ i = mapBucketIndex impl m' e.key) ∧
      (entries m').Pairwise fun e e' => ¬ mapKeysEqual impl e.key e'.key = true := by
  intro m'
  obtain ⟨M, hrun, hm'⟩ := run_refines calls (createHashMap_represents h hcreate) a'
  refine ⟨M, hrun, hashGet_eq hm', ?_, hm'.lists.finite_support,
    fun hle => hm'.hashSize_eq.trans (int32_natCast hle), fun i e he => ?_, ?_⟩
  · rintro rfl
    exact run_always calls m
  · rw [hm'.mapBucketIndex_eq, hm'.placed i e he]
    refine ⟨?_, rfl⟩
    rw [← hm'.placed i e he]
    exact bucketAt_lt h hm'.capacity_pos e.key
  · refine (List.pairwise_map.mp hm'.lists.nodup).imp fun hne heq => ?_
    exact hne ((keyClass_eq_iff h).mpr heq)

/-- Numbers as keys, hashed by their remainder. -/
def remainderFunctions : MapFunctions ℕ where
  hashFunc := fun k capacity => k % capacity
  keyCompare := some fun a b => (a : ℤ) - b

theorem remainderFunctions_lawful : remainderFunctions.Lawful where
  hash_lt := fun k _ hcap => Nat.mod_lt k hcap
  equivalence := by
    rintro _ ⟨⟩
    simp only [sub_eq_zero, Nat.cast_inj]
    exact eq_equivalence
  hash_eq := by
    rintro _ ⟨⟩ a b hab _ _
    have : a = b := by simpa [sub_eq_zero] using hab
    rw [this]

/-- A run that binds `NULL` and a number, overwrites the first and removes the second. -/
theorem hashMap_refines_map_remainder :
    let calls : List (Call ℕ ℕ) :=
      [.put none none, .put (some 7) (some 3), .put none (some 1), .remove (some 7)]
    let res := run remainderFunctions .always ⟨fun _ => [], 20, 0⟩ calls
    ∃ M, MapRun remainderFunctions_lawful (fun _ => none) calls res.2 M ∧
      .code .errorMemory ∉ res.2 ∧ hashGet remainderFunctions res.1 none = some 1 ∧
      (M (keyClass remainderFunctions_lawful none)).join = some 1 ∧
      ((support M).ncard ≤ intMax → hashSize res.1 = (support M).ncard) := by
  intro calls res
  obtain ⟨M, hrun, hget, hcode, -, hsize, -⟩ :=
    hashMap_refines_map remainderFunctions_lawful .always .always 0 ⟨fun _ => [], 20, 0⟩ rfl calls
  have hnone : hashGet remainderFunctions res.1 none = some 1 := by decide +kernel
  exact ⟨M, hrun, hcode rfl, hnone, (hget none).symm.trans hnone, hsize⟩

/-! ## Past `INT_MAX`

The bindings are kept, and the size is another number. -/

/-- Puts that all get their entries bind their keys. -/
theorem run_puts_always {h : impl.Lawful} (keys : List κ) {m : MapImpl κ υ} {M : KeyMap h υ}
    (hm : Represents h m M) :
    ∃ M', Represents h (run impl .always m (keys.map fun key => .put (some key) none)).1 M' ∧
      ∀ c, c ∈ support M' ↔ (∃ key ∈ keys, keyClass h (some key) = c) ∨ c ∈ support M := by
  classical
  induction keys generalizing m M with
  | nil => exact ⟨M, hm, by simp⟩
  | cons key keys ih =>
    obtain ⟨m', hinsert, hm'⟩ := hashInsert_binds hm (some key) none
    obtain ⟨M', hM', hmem⟩ := ih hm'
    refine ⟨M', ?_, fun c => ?_⟩
    · rw [List.map_cons, run, step, hinsert]
      exact hM'
    · rw [hmem, support_update_some]
      simp only [Set.mem_insert_iff, List.mem_cons, exists_eq_or_imp, eq_comm (a := c)]
      rw [or_left_comm, or_assoc]

/-- **`INT_MAX + 1` keys**: every put succeeds, and the size is negative. -/
theorem hashMap_size_beyond_intMax :
    let calls : List (Call ℕ ℕ) :=
      (List.range (intMax + 1)).map fun key => .put (some key) none
    let res := run remainderFunctions .always ⟨fun _ => [], 20, 0⟩ calls
    ∃ M : KeyMap remainderFunctions_lawful ℕ,
      MapRun remainderFunctions_lawful (fun _ => none) calls res.2 M ∧
      (support M).ncard = intMax + 1 ∧ hashSize res.1 = -2147483648 := by
  obtain ⟨n, hn⟩ : ∃ n, n = intMax + 1 := ⟨_, rfl⟩
  rw [← hn]
  intro calls res
  have hcreate : createHashMap .always 0 = (some (⟨fun _ => [], 20, 0⟩ : MapImpl ℕ ℕ), .always) :=
    rfl
  have hempty := createHashMap_represents remainderFunctions_lawful hcreate
  obtain ⟨M, hrun, hM⟩ := run_refines calls hempty .always
  obtain ⟨M', hM', hmem⟩ := run_puts_always (List.range n) hempty
  obtain rfl := hM.lists.unique hM'.lists
  have henum : Enumerates (fun key => keyClass remainderFunctions_lawful (some key))
      (List.range n) (support M) := by
    refine ⟨List.nodup_range.map fun j k hjk => ?_, fun c => ?_⟩
    · have heq := (keyClass_eq_iff remainderFunctions_lawful).mp hjk
      simpa [remainderFunctions, mapKeysEqual, safeKeyEquals, sub_eq_zero] using heq
    · rw [hmem, support_none]
      simp
  have hcard : (support M).ncard = n := by rw [henum.ncard_eq, List.length_range]
  refine ⟨M, hrun, hcard, ?_⟩
  rw [hM.hashSize_eq, hcard, hn]
  rfl

end Map

end OvaLib
