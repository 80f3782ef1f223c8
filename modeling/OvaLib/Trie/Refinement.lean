import Mathlib.Data.Set.Card
import OvaLib.Trie.Contents

/-!
# The trie is a finite map

The abstract trie is the partial map from words to values that the calls so far have built. The
model refines it: after every run of insertions and deletions the calls have answered as they would
on the map, and each query is a function of the map alone.

## What is said of the queries

The words with a prefix are those of the map that begin with it. Their number is the cardinality of
that set, and the list has each of them once, in ascending order. The statement has these answers
for every prefix, the empty one included, on the trie that any run has led to. A word is a list of
bytes without `NUL`, as `char` strings are; the map itself does not know about inline tails, and
that these cannot be noticed is part of what is proved.

## The bound

The two counts are cast to `int`, so the answers are those of the map up to `INT_MAX` words. That
bound is on the number of words the map has when it is asked, and the run that leads there may have
had more on the way. The last section counts one word more than fits.

## Scope

Allocations succeed here. `InsertFailure` is about those that do not.

## Main results

* `insertMethod_always`, `deleteMethod_spec` — one call, on the invariant and on the map
* `run_refines` — a whole run
* `trie_refines_map` — a whole run, with every query on the state it leaves
-/

namespace OvaLib

namespace Trie

variable {V : Type*}

/-- A call that changes the trie. -/
inductive Call (V : Type*)
  | insert (word : List Byte) (value : Option V)
  | delete (word : List Byte)

/-- What such a call returns. -/
inductive Response
  | inserted (code : ErrorCode)
  | deleted (found : Bool)
  deriving DecidableEq, Repr

/-- The model's step; every allocation succeeds. -/
def step (t : TrieImpl V) : Call V → TrieImpl V × Response
  | .insert word value =>
    ((insertMethod .always t word value).1, .inserted (insertMethod .always t word value).2)
  | .delete word => ((deleteMethod t word).1, .deleted (deleteMethod t word).2)

/-- A run of the model: the state it ends in and the responses on the way. -/
def run (t : TrieImpl V) : List (Call V) → TrieImpl V × List Response
  | [] => (t, [])
  | call :: calls =>
    ((run (step t call).1 calls).1, (step t call).2 :: (run (step t call).1 calls).2)

/-! ## The abstract trie -/

/-- The words and the values bound to them. -/
abbrev WordMap (V : Type*) := List Byte → Option (Option V)

/-- The words of the map. -/
def WordMap.words (W : WordMap V) : Set (List Byte) := {w | (W w).isSome}

/-- The words of the map that begin with `pre`. -/
def WordMap.wordsFrom (W : WordMap V) (pre : List Byte) : Set (List Byte) :=
  {w | w ∈ W.words ∧ pre <+: w}

/-- What a call does to the map, and how it answers. -/
def WordMap.step (W : WordMap V) : Call V → WordMap V × Response
  | .insert word value => (Function.update W word (some value), .inserted .success)
  | .delete word => (Function.update W word none, .deleted (W word).isSome)

/-- A run on the map. -/
def WordMap.run (W : WordMap V) : List (Call V) → WordMap V × List Response
  | [] => (W, [])
  | call :: calls =>
    (((W.step call).1.run calls).1, (W.step call).2 :: ((W.step call).1.run calls).2)

/-- **The coupling invariant**: a well-formed trie that stores the words of the map. -/
structure Represents (t : TrieImpl V) (W : WordMap V) : Prop where
  notNull : t.root.isNull = false
  wf : Wf t.root
  /-- `word_count` is kept apart from the counters of the nodes. -/
  wordCount : t.wordCount = size t.root
  lookup_eq : ∀ w, lookup t.root w = W w

/-! ## One call

Each is the lemma of `Contents`, applied at the root. -/

theorem represents_createTrie : Represents (createTrie : TrieImpl V) fun _ => none where
  notNull := rfl
  wf := wf_trieNodeCreate
  wordCount := size_trieNodeCreate.symm
  lookup_eq := lookup_trieNodeCreate

/-- An insertion binds its word and reports success. -/
theorem insertMethod_always {t : TrieImpl V} {W : WordMap V} (h : Represents t W)
    (word : List Byte) (value : Option V) :
    (insertMethod .always t word value).2 = .success ∧
      Represents (insertMethod .always t word value).1
        (Function.update W word (some value)) := by
  obtain ⟨node, heq, hnull, hwf, hsize, hlook⟩ := insertAt_always value word h.wf h.notNull
  have hmap : ∀ w, lookup node w = Function.update W word (some value) w := by
    intro w
    rw [hlook, h.lookup_eq, Function.update_apply]
  cases hpresent : (lookup t.root word).isSome with
  | true =>
    rw [hpresent] at heq hsize
    have hres : insertMethod .always t word value = (⟨node, t.wordCount⟩, .success) := by
      simp [insertMethod, heq, outcomeOf]
    rw [hres]
    refine ⟨rfl, hnull, hwf, ?_, hmap⟩
    rw [hsize, h.wordCount]; rfl
  | false =>
    rw [hpresent] at heq hsize
    have hres : insertMethod .always t word value = (⟨node, t.wordCount + 1⟩, .success) := by
      simp [insertMethod, heq, outcomeOf]
    rw [hres]
    refine ⟨rfl, hnull, hwf, ?_, hmap⟩
    rw [hsize, h.wordCount]; rfl

/-- A deletion reports whether the word was there, and removes only it. -/
theorem deleteMethod_spec {t : TrieImpl V} {W : WordMap V} (h : Represents t W)
    (word : List Byte) :
    (deleteMethod t word).2 = (W word).isSome ∧
      Represents (deleteMethod t word).1 (Function.update W word none) := by
  obtain ⟨hrem, hnn, hwf, -, hlook, hsize, -⟩ := deleteRecursive_spec word true h.wf h.notNull
  rcases hres : deleteRecursive word true t.root with ⟨node, removed, free⟩
  rw [hres] at hrem hnn hwf hlook hsize
  simp only at hrem hnn hwf hlook hsize
  have hmap : ∀ w, lookup node w = Function.update W word none w := by
    intro w
    rw [hlook, h.lookup_eq, Function.update_apply]
  have hcount := h.wordCount
  rw [← h.lookup_eq, ← hrem]
  cases removed with
  | true =>
    have heq : deleteMethod t word = (⟨node, t.wordCount - 1⟩, true) := by
      simp [deleteMethod, hres]
    rw [heq]
    refine ⟨rfl, hnn, hwf, ?_, hmap⟩
    simp only [if_true] at hsize
    change t.wordCount - 1 = size node
    omega
  | false =>
    have heq : deleteMethod t word = (⟨node, t.wordCount⟩, false) := by
      simp [deleteMethod, hres]
    rw [heq]
    refine ⟨rfl, hnn, hwf, ?_, hmap⟩
    rw [hcount, ← hsize]; rfl

theorem step_refines {t : TrieImpl V} {W : WordMap V} (h : Represents t W) (call : Call V) :
    (step t call).2 = (W.step call).2 ∧ Represents (step t call).1 (W.step call).1 := by
  cases call with
  | insert word value =>
    obtain ⟨hcode, hrep⟩ := insertMethod_always h word value
    exact ⟨congrArg Response.inserted hcode, hrep⟩
  | delete word =>
    obtain ⟨hfound, hrep⟩ := deleteMethod_spec h word
    exact ⟨congrArg Response.deleted hfound, hrep⟩

/-! ## Whole runs -/

/-- **A run of the model simulates the run on the map.** -/
theorem run_refines (calls : List (Call V)) {t : TrieImpl V} {W : WordMap V}
    (h : Represents t W) :
    (run t calls).2 = (W.run calls).2 ∧ Represents (run t calls).1 (W.run calls).1 := by
  induction calls generalizing t W with
  | nil => exact ⟨rfl, h⟩
  | cons call calls ih =>
    obtain ⟨hresp, hrep⟩ := step_refines h call
    obtain ⟨hresps, hend⟩ := ih hrep
    exact ⟨congrArg₂ List.cons hresp hresps, hend⟩

/-! ## Queries -/

/-- A search returns the bound value, `NULL` for an absent word. -/
theorem searchMethod_eq {t : TrieImpl V} {W : WordMap V} (h : Represents t W)
    (word : List Byte) : searchMethod t word = (W word).join := by
  have hspec := walk_spec h.wf word
  have hw : lookup t.root word = W word := h.lookup_eq word
  rw [searchMethod]
  cases hr : walk t.root word with
  | exact node =>
    rw [hr] at hspec
    cases hspec with
    | exact data children hwf hlook =>
      have hnil := hlook []
      rw [List.append_nil, hw] at hnil
      rw [hnil]
      by_cases hsso : data.sso = []
      · rw [lookup_nil children hsso]
        cases hend : data.isEnd <;> simp [hend, hsso]
      · rw [lookup_of_sso children hsso, if_neg fun hu => hsso hu.1.symm]
        simp [hsso]
  | ssoFull data consumed =>
    rw [hr] at hspec
    cases hspec with
    | ssoFull _ _ hend _ hlook =>
      have hnil := hlook []
      rw [List.append_nil, hw] at hnil
      simp [hnil, hend]
  | ssoPrefix data consumed =>
    rw [hr] at hspec
    cases hspec with
    | ssoPrefix _ _ _ _ hne hlook =>
      have hnil := hlook []
      rw [List.append_nil, hw, if_neg (Ne.symm hne)] at hnil
      simp [hnil]
  | miss =>
    rw [hr] at hspec
    cases hspec with
    | miss hlook =>
      have hnil := hlook []
      rw [List.append_nil, hw] at hnil
      simp [hnil]

/-- The words below the node a prefix leads to: in ascending order, as many as the node counts, and
exactly the stored ones that begin with the prefix. -/
theorem wordsBelow_spec {t : TrieImpl V} {W : WordMap V} (h : Represents t W) (pre : List Byte) :
    ((walk t.root pre).wordsBelow pre).Pairwise (· < ·) ∧
      ((walk t.root pre).wordsBelow pre).length = (walk t.root pre).subtreeWords ∧
      ∀ w, w ∈ (walk t.root pre).wordsBelow pre ↔ w ∈ W.wordsFrom pre := by
  have hmem : ∀ w, w ∈ W.wordsFrom pre ↔ ∃ u, w = pre ++ u ∧ (lookup t.root (pre ++ u)).isSome := by
    intro w
    constructor
    · rintro ⟨hw, u, rfl⟩
      exact ⟨u, rfl, by rw [h.lookup_eq]; exact hw⟩
    · rintro ⟨u, rfl, hu⟩
      exact ⟨by rw [h.lookup_eq] at hu; exact hu, u, rfl⟩
  simp only [hmem]
  have hspec := walk_spec h.wf pre
  cases hr : walk t.root pre with
  | exact node =>
    rw [hr] at hspec
    cases hspec with
    | exact data children hwf hlook =>
      simp only [hlook, WalkResult.subtreeWords, WalkResult.wordsBelow, hwf.1.subtreeWords]
      exact ⟨pairwise_collectWords _ _, length_collectWords hwf _, fun w => mem_collectWords⟩
  | ssoFull data consumed =>
    rw [hr] at hspec
    cases hspec with
    | ssoFull _ _ hend hone hlook =>
      simp only [hlook, WalkResult.subtreeWords, WalkResult.wordsBelow, hone, hend]
      refine ⟨by simp, by simp, fun w => ?_⟩
      simp
  | ssoPrefix data consumed =>
    rw [hr] at hspec
    cases hspec with
    | ssoPrefix _ _ hend hone _ hlook =>
      simp only [hlook, WalkResult.subtreeWords, WalkResult.wordsBelow, hone, hend]
      refine ⟨by simp, by simp, fun w => ?_⟩
      simp
  | miss =>
    rw [hr] at hspec
    cases hspec with
    | miss hlook => simp [hlook, WalkResult.subtreeWords, WalkResult.wordsBelow]

/-- A duplicate-free listing counts the set it lists. -/
theorem ncard_eq_length {α : Type*} {s : Set α} {l : List α} (hl : l.Nodup)
    (h : ∀ w, w ∈ l ↔ w ∈ s) : s.ncard = l.length := by
  classical
  have hs : s = ↑l.toFinset := by
    ext w
    rw [List.coe_toFinset]
    exact (h w).symm
  rw [hs, Set.ncard_coe_finset, List.toFinset_card_of_nodup hl]

/-- The node a prefix leads to counts the words that begin with it. -/
theorem subtreeWords_eq {t : TrieImpl V} {W : WordMap V} (h : Represents t W) (pre : List Byte) :
    (walk t.root pre).subtreeWords = (W.wordsFrom pre).ncard := by
  obtain ⟨hsorted, hlen, hmem⟩ := wordsBelow_spec h pre
  rw [ncard_eq_length (hsorted.imp fun hlt => ne_of_lt hlt) hmem, hlen]

theorem wordCount_eq {t : TrieImpl V} {W : WordMap V} (h : Represents t W) :
    t.wordCount = W.words.ncard := by
  have hmem : ∀ w, w ∈ collectWords t.root [] ↔ w ∈ W.words := by
    intro w
    rw [mem_collectWords]
    simp [h.lookup_eq, WordMap.words]
  rw [ncard_eq_length (nodup_collectWords _ _) hmem, length_collectWords h.wf, ← h.wordCount]

theorem countPrefixesMethod_eq_walk (t : TrieImpl V) (pre : List Byte) :
    countPrefixesMethod t pre = int32 (walk t.root pre).subtreeWords := by
  rw [countPrefixesMethod]
  cases walk t.root pre with
  | miss => exact (int32_natCast (Nat.zero_le _)).symm
  | exact node => simp only
  | ssoFull data consumed => simp only
  | ssoPrefix data consumed => simp only

theorem startsWithMethod_eq_walk (t : TrieImpl V) (pre : List Byte) :
    startsWithMethod t pre = decide (0 < (walk t.root pre).subtreeWords) := by
  rw [startsWithMethod]
  cases walk t.root pre <;> simp [WalkResult.subtreeWords]

/-- The list of a prefix with at most `INT_MAX` words has all of them. -/
theorem getWordsWithPrefixMethod_eq {t : TrieImpl V} {W : WordMap V} (h : Represents t W)
    {pre : List Byte} (hmax : (W.wordsFrom pre).ncard ≤ intMax) :
    getWordsWithPrefixMethod t pre = (walk t.root pre).wordsBelow pre := by
  obtain ⟨-, hlen, -⟩ := wordsBelow_spec h pre
  rw [← subtreeWords_eq h pre] at hmax
  rw [getWordsWithPrefixMethod, int32_natCast hmax]
  split
  · next hzero =>
    rw [Int.natCast_eq_zero.mp hzero] at hlen
    exact (List.eq_nil_of_length_eq_zero hlen).symm
  · exact List.take_of_length_le (hlen ▸ hmax)

/-! ## The whole interface -/

/-- **The trie is a finite map from words to values.** After every run of insertions and deletions
on a fresh trie, the calls have answered as on the map, and so does every query; the two counts and
the listing return an `int` of words at most, so they answer for no more than `INT_MAX` of them. -/
theorem trie_refines_map (calls : List (Call V)) :
    let t := (run (createTrie : TrieImpl V) calls).1
    let W := (WordMap.run (fun _ => none) calls).1
    (run (createTrie : TrieImpl V) calls).2 = (WordMap.run (fun _ => none) calls).2 ∧
      W.words.Finite ∧
      (∀ word, searchMethod t word = (W word).join) ∧
      (W.words.ncard ≤ intMax → countWordsMethod t = W.words.ncard) ∧
      ∀ pre, (startsWithMethod t pre = true ↔ 0 < (W.wordsFrom pre).ncard) ∧
        ((W.wordsFrom pre).ncard ≤ intMax →
          countPrefixesMethod t pre = (W.wordsFrom pre).ncard ∧
          (getWordsWithPrefixMethod t pre).Pairwise (· < ·) ∧
          ∀ w, w ∈ getWordsWithPrefixMethod t pre ↔ w ∈ W.wordsFrom pre) := by
  intro t W
  obtain ⟨hresp, hrep⟩ := run_refines calls (represents_createTrie (V := V))
  refine ⟨hresp, ?_, searchMethod_eq hrep, fun hmax => ?_, fun pre => ⟨?_, fun hmax => ?_⟩⟩
  · refine (List.finite_toSet (collectWords t.root [])).subset fun w hw => ?_
    refine mem_collectWords.mpr ⟨w, rfl, ?_⟩
    rw [hrep.lookup_eq]
    exact hw
  · rw [countWordsMethod, wordCount_eq hrep, int32_natCast hmax]
  · rw [startsWithMethod_eq_walk, decide_eq_true_iff, subtreeWords_eq hrep]
  · obtain ⟨hsorted, -, hmem⟩ := wordsBelow_spec hrep pre
    rw [countPrefixesMethod_eq_walk, subtreeWords_eq hrep, int32_natCast hmax,
      getWordsWithPrefixMethod_eq hrep hmax]
    exact ⟨rfl, hsorted, hmem⟩

/-- The bytes other than `NUL`, by number. -/
def nonNul (k : ℕ) : Byte := ⟨k % 255 + 1, Nat.succ_lt_succ (Nat.mod_lt k (Nat.zero_lt_succ 254))⟩

/-- Two words, one of which ends inside the inline tail of the other, and one that is deleted. -/
def shortRun : List (Call ℕ) :=
  [.insert [nonNul 110, nonNul 117, nonNul 96, nonNul 107] (some 1), .insert [nonNul 199] none,
    .insert [nonNul 110, nonNul 117] (some 2), .delete [nonNul 199]]

theorem trie_refines_map_short :
    (run createTrie shortRun).2 = [.inserted .success, .inserted .success, .inserted .success,
        .deleted true] ∧
      countWordsMethod (run createTrie shortRun).1 = 2 ∧
      (getWordsWithPrefixMethod (run createTrie shortRun).1 []).Pairwise (· < ·) ∧
      [nonNul 110, nonNul 117] ∈ getWordsWithPrefixMethod (run createTrie shortRun).1 [] := by
  obtain ⟨hresp, -, -, hcount, hquery⟩ := trie_refines_map shortRun
  have hwords : ∀ w, w ∈ [[nonNul 110, nonNul 117, nonNul 96, nonNul 107],
      [nonNul 110, nonNul 117]] ↔ w ∈ (WordMap.run (fun _ => none) shortRun).1.words := by
    intro w
    simp only [shortRun, WordMap.run, WordMap.step, WordMap.words, Function.update_apply]
    by_cases hdeleted : w = [nonNul 199]
    · subst hdeleted
      simp [nonNul]
    · simp [hdeleted, or_comm]
      grind
  have htwo := ncard_eq_length (by decide) hwords
  have hfrom : (WordMap.run (fun _ => none) shortRun).1.wordsFrom [] =
      (WordMap.run (fun _ => none) shortRun).1.words := by
    simp [WordMap.wordsFrom]
  obtain ⟨-, hlist⟩ := hquery []
  rw [hfrom, htwo] at hlist
  obtain ⟨-, hsorted, hmem⟩ := hlist (by decide)
  refine ⟨hresp, (hcount (by rw [htwo]; decide)).trans (by rw [htwo]; rfl), hsorted, ?_⟩
  rw [hmem, ← hwords]
  decide

/-! ## Past `INT_MAX` -/

/-- Insertions bind their words. -/
theorem WordMap.run_insert (ws : List (List Byte)) (W : WordMap V) :
    (W.run (ws.map fun w => .insert w none)).1 = fun w => if w ∈ ws then some none else W w := by
  induction ws generalizing W with
  | nil => simp [WordMap.run]
  | cons u ws ih =>
    rw [List.map_cons, WordMap.run, ih]
    funext w
    simp only [WordMap.step, Function.update_apply, List.mem_cons]
    by_cases hw : w ∈ ws <;> by_cases hu : w = u <;> simp [hw, hu]

/-- A word of four bytes for each number below `255 ^ 4`; none of the bytes is `NUL`. -/
def fourBytes (k : ℕ) : List Byte :=
  [nonNul k, nonNul (k / 255), nonNul (k / 65025), nonNul (k / 16581375)]

theorem fourBytes_inj {j k : ℕ} (hj : j ≤ intMax) (hk : k ≤ intMax)
    (h : fourBytes j = fourBytes k) : j = k := by
  rw [intMax] at hj hk
  simp only [fourBytes, nonNul, List.cons.injEq, Fin.mk.injEq, and_true] at h
  omega

/-- The insertions of so many words of four bytes. -/
def manyInsertions (n : ℕ) : List (Call Unit) :=
  ((List.range n).map fourBytes).map fun w => .insert w none

theorem ncard_manyInsertions {n : ℕ} (hn : n = intMax + 1) :
    (WordMap.run (fun _ => none) (manyInsertions n)).1.words.ncard = n := by
  have hnodup : ((List.range n).map fourBytes).Nodup := by
    refine List.nodup_range.map_on fun j hj k hk => ?_
    rw [List.mem_range] at hj hk
    exact fourBytes_inj (by omega) (by omega)
  rw [manyInsertions, WordMap.run_insert, ncard_eq_length hnodup fun w => ?_, List.length_map,
    List.length_range]
  simp [WordMap.words]

/-- The count of so many words is negative. -/
theorem countWordsMethod_of_many {n : ℕ} (hn : n = intMax + 1) :
    countWordsMethod (run (createTrie : TrieImpl Unit) (manyInsertions n)).1 = -2147483648 := by
  obtain ⟨-, hrep⟩ := run_refines (manyInsertions n) (represents_createTrie (V := Unit))
  rw [countWordsMethod, wordCount_eq hrep, ncard_manyInsertions hn, hn]
  decide

/-- **`INT_MAX + 1` words**: the number of words is cast to a negative `int`. -/
theorem countWordsMethod_beyond_intMax :
    let t := (run (createTrie : TrieImpl Unit) (manyInsertions (intMax + 1))).1
    let W := (WordMap.run (fun _ => none) (manyInsertions (intMax + 1))).1
    W.words.ncard = intMax + 1 ∧ countWordsMethod t ≠ W.words.ncard := by
  intro t W
  have hcard : W.words.ncard = intMax + 1 := ncard_manyInsertions rfl
  have hcount : countWordsMethod t = -2147483648 := countWordsMethod_of_many rfl
  refine ⟨hcard, ?_⟩
  rw [hcount, hcard]
  decide

end Trie

end OvaLib
