import OvaLib.Map.HashMapRefinement

/-!
# The hash functions

The five functions of `map.c` read a string byte by byte up to the terminating zero and mix the
bytes into an `unsigned long` of 64 bits. A key is the memory from its pointer on; the bytes behind
the terminator do not belong to the string.

With any of them, and with a comparator that finds two keys equal when the strings are, the hash map
is a finite map on strings.

## What a hash function owes

The map asks for an index below its capacity, and for equal indices of equal keys. The first is the
remainder at the end of each function, and the second says that none of them looks behind the
terminator. They share their loop, so there is one proof with the mixing step as a parameter. How
well they mix is not a matter of this module: the additive function gives a word and its anagrams
one bucket, and the map is as correct as with any other.

The bytes are read as `unsigned char`, and the sums wrap around modulo `2 ^ 64`, as on a platform
where `unsigned long` has 64 bits. Nothing that is proved depends on that width.

## Main results

* `stringFunctions_lawful` — each function does what the hash map asks of it
* `stringMap_refines_plain` — which function and which capacity a map has cannot be observed
-/

namespace OvaLib

namespace Map

open Foundation

/-! ## The model -/

/-- The memory from a pointer on. -/
abbrev CString := List UInt8

/-- The loop over the bytes up to the terminator. -/
def hashLoop (mix : UInt64 → UInt64 → UInt64) : UInt64 → CString → UInt64
  | hash, [] => hash
  | hash, c :: str => if c = 0 then hash else hashLoop mix (mix hash c.toUInt64) str

/-- What the five functions share: `NULL` and a capacity below 1 are hashed to 0. -/
def hashString (start : UInt64) (mix : UInt64 → UInt64 → UInt64) (key : Option CString)
    (capacity : ℤ) : ℤ :=
  match key with
  | none => 0
  | some str => if capacity ≤ 0 then 0 else (hashLoop mix start str).toNat % capacity

/-- `bernstein_hash`. -/
def bernsteinHash : Option CString → ℤ → ℤ :=
  hashString 5381 fun hash c => ((hash <<< 5) + hash) + c

/-- `fnv1a_hash`. -/
def fnv1aHash : Option CString → ℤ → ℤ :=
  hashString 2166136261 fun hash c => (hash ^^^ c) * 16777619

/-- `xor_hash`. -/
def xorHash : Option CString → ℤ → ℤ :=
  hashString 0 fun hash c => hash ^^^ ((hash <<< 5) + (hash >>> 2) + c)

/-- `rotational_hash`. -/
def rotationalHash : Option CString → ℤ → ℤ :=
  hashString 0 fun hash c => (hash <<< 4) ^^^ (hash >>> 28) ^^^ c

/-- `additive_hash`. -/
def additiveHash : Option CString → ℤ → ℤ :=
  hashString 0 fun hash c => hash + c

/-- `hash_functions`. -/
def hashFunctions : List (Option CString → ℤ → ℤ) :=
  [bernsteinHash, fnv1aHash, xorHash, rotationalHash, additiveHash]

/-- The function fields of a map from strings. -/
def stringFunctions (f : Option CString → ℤ → ℤ) (cmp : CString → CString → ℤ) :
    MapFunctions CString where
  hashFunc := fun key capacity => (f (some key) capacity).toNat
  keyCompare := some cmp

/-- `strcmp`. -/
def strcmp : CString → CString → ℤ
  | [], [] => 0
  | [], b :: _ => -(b.toNat : ℤ)
  | a :: _, [] => a.toNat
  | a :: as, b :: bs => if a = b ∧ a ≠ 0 then strcmp as bs else (a.toNat : ℤ) - b.toNat

/-! ## Strings

The string at a pointer is what comes before the first zero byte. -/

/-- The bytes before the terminator. -/
def content (key : CString) : List UInt8 := key.takeWhile (· ≠ 0)

/-- A comparator that finds keys equal when their strings are. -/
def ComparesStrings (cmp : CString → CString → ℤ) : Prop :=
  ∀ a b, cmp a b = 0 ↔ content a = content b

theorem content_cons_zero (str : CString) : content (0 :: str) = [] := rfl

theorem content_cons {c : UInt8} (hc : c ≠ 0) (str : CString) :
    content (c :: str) = c :: content str :=
  List.takeWhile_cons_of_pos (decide_eq_true hc)

/-- A hash depends on the string only. -/
theorem hashLoop_content (mix : UInt64 → UInt64 → UInt64) (hash : UInt64) (key : CString) :
    hashLoop mix hash key = (content key).foldl (fun hash c => mix hash c.toUInt64) hash := by
  induction key generalizing hash with
  | nil => rfl
  | cons c str ih =>
    rw [hashLoop]
    by_cases hc : c = 0
    · rw [if_pos hc, hc, content_cons_zero]
      rfl
    · rw [if_neg hc, ih, content_cons hc, List.foldl_cons]

theorem toNat_ne_zero {c : UInt8} (hc : c ≠ 0) : c.toNat ≠ 0 := by
  intro h
  exact hc (UInt8.toNat_inj.mp h)

/-- `strcmp` compares strings. -/
theorem strcmp_comparesStrings : ComparesStrings strcmp := by
  intro a b
  induction a, b using strcmp.induct with
  | case1 => exact iff_of_true rfl rfl
  | case2 b bs =>
    rw [strcmp]
    by_cases hb : b = 0
    · rw [hb, content_cons_zero]
      exact iff_of_true rfl rfl
    · have hne := toNat_ne_zero hb
      rw [content_cons hb]
      exact iff_of_false (by omega) (by simp [content])
  | case3 a as =>
    rw [strcmp]
    by_cases ha : a = 0
    · rw [ha, content_cons_zero]
      exact iff_of_true rfl rfl
    · have hne := toNat_ne_zero ha
      rw [content_cons ha]
      exact iff_of_false (by omega) (by simp [content])
  | case4 a as b bs hsame ih =>
    obtain ⟨rfl, ha⟩ := hsame
    rw [strcmp, if_pos ⟨rfl, ha⟩, ih, content_cons ha, content_cons ha, List.cons.injEq]
    exact (and_iff_right rfl).symm
  | case5 a as b bs hdiff =>
    rw [strcmp, if_neg hdiff, sub_eq_zero, Nat.cast_inj, UInt8.toNat_inj]
    by_cases ha : a = 0
    · by_cases hb : b = 0
      · rw [ha, hb, content_cons_zero, content_cons_zero]
        exact iff_of_true rfl rfl
      · rw [ha, content_cons_zero, content_cons hb]
        exact iff_of_false (Ne.symm hb) (by simp)
    · have hne : a ≠ b := fun heq => hdiff ⟨heq, ha⟩
      by_cases hb : b = 0
      · rw [hb, content_cons_zero, content_cons ha]
        exact iff_of_false ha (by simp)
      · rw [content_cons ha, content_cons hb]
        exact iff_of_false hne fun h => hne (List.cons.inj h).1

/-! ## The functions as hash functions -/

variable {f : Option CString → ℤ → ℤ} {cmp : CString → CString → ℤ}

/-- The functions differ in where they start and how they mix. -/
theorem exists_hashString (hf : f ∈ hashFunctions) : ∃ start mix, f = hashString start mix := by
  simp only [hashFunctions, List.mem_cons, List.not_mem_nil, or_false] at hf
  rcases hf with rfl | rfl | rfl | rfl | rfl
  · exact ⟨_, _, rfl⟩
  · exact ⟨_, _, rfl⟩
  · exact ⟨_, _, rfl⟩
  · exact ⟨_, _, rfl⟩
  · exact ⟨_, _, rfl⟩

theorem hashString_range (start : UInt64) (mix : UInt64 → UInt64 → UInt64) (key : Option CString)
    {capacity : ℤ} (hcap : 0 < capacity) :
    0 ≤ hashString start mix key capacity ∧ hashString start mix key capacity < capacity := by
  cases key with
  | none => exact ⟨le_refl _, hcap⟩
  | some str =>
    rw [hashString, if_neg (not_le.mpr hcap)]
    exact ⟨Int.emod_nonneg _ hcap.ne', Int.emod_lt_of_pos _ hcap⟩

theorem hashString_congr (start : UInt64) (mix : UInt64 → UInt64 → UInt64) {a b : CString}
    (h : content a = content b) (capacity : ℤ) :
    hashString start mix (some a) capacity = hashString start mix (some b) capacity := by
  rw [hashString, hashString, hashLoop_content, hashLoop_content, h]

/-- **Each of the functions is what the hash map asks for.** -/
theorem stringFunctions_lawful (hf : f ∈ hashFunctions) (hcmp : ComparesStrings cmp) :
    (stringFunctions f cmp).Lawful := by
  obtain ⟨start, mix, rfl⟩ := exists_hashString hf
  refine ⟨?_, ?_, ?_⟩
  · intro key capacity hcap
    obtain ⟨hlow, hhigh⟩ := hashString_range start mix (some key) (Int.natCast_pos.mpr hcap)
    exact (Int.toNat_lt hlow).mpr hhigh
  · rintro _ ⟨⟩
    refine ⟨fun a => (hcmp a a).mpr rfl, fun {a b} h => ?_, fun {a b c} h h' => ?_⟩
    · exact (hcmp b a).mpr ((hcmp a b).mp h).symm
    · exact (hcmp a c).mpr (((hcmp a b).mp h).trans ((hcmp b c).mp h'))
  · rintro _ ⟨⟩ a b hab capacity -
    exact congrArg Int.toNat (hashString_congr start mix ((hcmp a b).mp hab) capacity)

/-! ## Maps from strings

Keys are told apart by their strings alone, so the classes of equal keys are the strings, and the
finite map of the refinement becomes one on strings. -/

variable {υ : Type*}

/-- A finite map on strings; `none` is the key `NULL`. -/
abbrev StringMap (υ : Type*) := Option (List UInt8) → Option (Option υ)

/-- What a call does to it, and what it answers. -/
def plainStep (M : StringMap υ) : Call CString υ → StringMap υ × Response υ
  | .put key data => (Function.update M (key.map content) (some data), .code .success)
  | .get key => (M, .data (M (key.map content)).join)
  | .remove key => (Function.update M (key.map content) none, .data (M (key.map content)).join)
  | .clear => (fun _ => none, .unit)

/-- The answers of a run. -/
def plainRun : StringMap υ → List (Call CString υ) → List (Response υ)
  | _, [] => []
  | M, call :: calls => (plainStep M call).2 :: plainRun (plainStep M call).1 calls

/-- Keys are equal when they are the same string, or both `NULL`. -/
theorem mapKeysEqual_string (hcmp : ComparesStrings cmp) {j k : Option CString} :
    mapKeysEqual (stringFunctions f cmp) j k = true ↔ j.map content = k.map content := by
  cases j with
  | none => cases k <;> simp [mapKeysEqual, stringFunctions, safeKeyEquals]
  | some a =>
    cases k with
    | none => simp [mapKeysEqual, stringFunctions, safeKeyEquals]
    | some b => simp [mapKeysEqual, stringFunctions, safeKeyEquals, hcmp a b]

/-- The map on classes of equal keys is the map on strings. -/
def SameMap (h : (stringFunctions f cmp).Lawful) (M : KeyMap h υ) (N : StringMap υ) : Prop :=
  ∀ key, M (keyClass h key) = N (key.map content)

open Classical in
theorem SameMap.update {h : (stringFunctions f cmp).Lawful} (hcmp : ComparesStrings cmp)
    {M : KeyMap h υ} {N : StringMap υ} (hM : SameMap h M N) (key : Option CString)
    (v : Option (Option υ)) :
    SameMap h (Function.update M (keyClass h key) v) (Function.update N (key.map content) v) := by
  intro k
  by_cases hk : k.map content = key.map content
  · have hclass : keyClass h k = keyClass h key :=
      (keyClass_eq_iff h).mpr ((mapKeysEqual_string hcmp).mpr hk)
    rw [hclass, hk, Function.update_self, Function.update_self]
  · have hclass : keyClass h k ≠ keyClass h key := fun heq =>
      hk ((mapKeysEqual_string hcmp).mp ((keyClass_eq_iff h).mp heq))
    rw [Function.update_of_ne hclass, Function.update_of_ne hk]
    exact hM k

open Classical in
theorem mapStep_remove {h : (stringFunctions f cmp).Lawful} {M M' : KeyMap h υ}
    {key : Option CString} {response : Response υ} (hstep : MapStep h M (.remove key) response M') :
    response = .data (M (keyClass h key)).join ∧
      M' = Function.update M (keyClass h key) none := by
  cases hstep
  exact ⟨rfl, rfl⟩

/-- One call, with allocations succeeding. -/
theorem step_plain {h : (stringFunctions f cmp).Lawful} (hcmp : ComparesStrings cmp)
    {m : MapImpl CString υ} {M : KeyMap h υ} {N : StringMap υ} (hm : Represents h m M)
    (hM : SameMap h M N) (call : Call CString υ) :
    (step (stringFunctions f cmp) .always m call).2 = ((plainStep N call).2, .always) ∧
      ∃ M', Represents h (step (stringFunctions f cmp) .always m call).1 M' ∧
        SameMap h M' (plainStep N call).1 := by
  classical
  obtain ⟨M', hstep, hm'⟩ := step_refines hm .always call
  cases call with
  | put key data =>
    have halways := hashInsert_always (stringFunctions f cmp) m key data
    have hanswer : (step (stringFunctions f cmp) .always m (.put key data)).2 =
        (.code .success, .always) := by
      rw [step]
      exact congrArg (fun r : ErrorCode × Allocator => (Response.code r.1, r.2)) halways
    rw [hanswer] at hstep ⊢
    refine ⟨rfl, M', hm', ?_⟩
    cases hstep
    exact hM.update hcmp key (some data)
  | get key =>
    refine ⟨?_, M, hm, hM⟩
    rw [step, hashGet_eq hm, hM key]
    rfl
  | remove key =>
    have hanswer : (step (stringFunctions f cmp) .always m (.remove key)).2 =
        (.data (hashRemove (stringFunctions f cmp) m key).2, .always) := rfl
    rw [hanswer] at hstep ⊢
    obtain ⟨hvalue, rfl⟩ := mapStep_remove hstep
    refine ⟨?_, _, hm', hM.update hcmp key none⟩
    have hdata : (hashRemove (stringFunctions f cmp) m key).2 = (N (key.map content)).join := by
      rw [← hM key]
      exact Response.data.inj hvalue
    rw [hdata]
    rfl
  | clear => exact ⟨rfl, _, hashClear_represents hm, fun key => rfl⟩

theorem run_plain {h : (stringFunctions f cmp).Lawful} (hcmp : ComparesStrings cmp)
    {calls : List (Call CString υ)} {m : MapImpl CString υ} {M : KeyMap h υ} {N : StringMap υ}
    (hm : Represents h m M) (hM : SameMap h M N) :
    (run (stringFunctions f cmp) .always m calls).2 = plainRun N calls := by
  induction calls generalizing m M N with
  | nil => rfl
  | cons call calls ih =>
    obtain ⟨hanswer, M', hm', hM'⟩ := step_plain hcmp hm hM call
    have hrest := ih hm' hM'
    have hsplit : (run (stringFunctions f cmp) .always m (call :: calls)).2 =
        (step (stringFunctions f cmp) .always m call).2.1 ::
          (run (stringFunctions f cmp) (step (stringFunctions f cmp) .always m call).2.2
            (step (stringFunctions f cmp) .always m call).1 calls).2 := rfl
    rw [hsplit, hanswer, plainRun, ← hrest]

/-- **A map from strings is a finite map on strings**, whichever of the functions it hashes with and
whatever its capacity: with allocations succeeding, its answers are those of the plain map, on which
the function and the capacity have no bearing. -/
theorem stringMap_refines_plain (hf : f ∈ hashFunctions) (hcmp : ComparesStrings cmp)
    (capacity : ℤ) (calls : List (Call CString υ)) :
    (∀ key (c : ℤ), (0 < c → 0 ≤ f key c ∧ f key c < c) ∧ (c ≤ 0 → f key c = 0)) ∧
    ∃ m : MapImpl CString υ, createHashMap .always capacity = (some m, .always) ∧
      (run (stringFunctions f cmp) .always m calls).2 = plainRun (fun _ => none) calls := by
  constructor
  · intro key c
    obtain ⟨start, mix, rfl⟩ := exists_hashString hf
    refine ⟨hashString_range start mix key, fun hc => ?_⟩
    cases key with
    | none => rfl
    | some str => exact if_pos hc
  · have h := stringFunctions_lawful hf hcmp
    obtain ⟨m, hcreate⟩ : ∃ m : MapImpl CString υ,
        createHashMap .always capacity = (some m, .always) := ⟨_, rfl⟩
    exact ⟨m, hcreate, run_plain hcmp (createHashMap_represents h hcreate) fun _ => rfl⟩

/-- A string, and the same string with something behind the terminator. -/
theorem stringMap_refines_plain_behind :
    ∃ m : MapImpl CString ℕ, createHashMap .always 0 = (some m, .always) ∧
      (run (stringFunctions xorHash strcmp) .always m
        [.put (some [107, 0, 1]) (some 3), .get (some [107])]).2 =
          plainRun (fun _ => none) [.put (some [107, 0, 1]) (some 3), .get (some [107])] :=
  (stringMap_refines_plain (by simp [hashFunctions]) strcmp_comparesStrings 0 _).2

end Map

end OvaLib
