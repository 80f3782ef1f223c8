import OvaLib.Trie.Refinement

/-!
# Insertion without memory

An insertion can run out of memory for its path array, while it unpacks the inline tail its descent
meets, or for a node of its own word. Only the second is visible afterwards: a tail that is unpacked
halfway has lost its word.

## The contract that is broken

`OVA_ERROR_MEMORY` says that the word could not be stored. It does not say that another word is no
longer found. `sso_expand` clears the tail before it allocates the first node of the chain and does
not put it back, so when a later node is not to be had, the word of the tail ends nowhere, while the
counters above still count it.

## What the condition says

A descent meets at most one inline tail: the node that has one has no children, so below it there
are only new nodes. The insertion leaves every answer as it was exactly when it gets no further than
its path array, or has memory for every node of that tail. `insertMethod_keeps_iff` states this for
every trie that runs of calls lead to, failing ones among them, and the condition is about the trie
before the call and the outcomes of its allocations.

A node created for the new word carries no count yet, so every query passes over it, and a tail that
is unpacked to its end answers as before.

## How the two halves are proved

Where every node of the tail is to be had, the tries before and after are compared by `SameBelow`:
every query reads the same below two nodes. It is a relation between nodes and not an equality,
because an unpacked tail is other nodes with the same word. It goes through nodes without a tail,
and so the descent is by induction on the word.

Where some node of the tail is not to be had, one query is enough to tell the two tries apart. The
word of the tail is counted below its node before, and afterwards the walk to it ends in nothing.
The nodes on the way to it are left with their counts, so the query that differs is one for the
whole word.

## Main results

* `sameBelow_expandChain` — a tail that is unpacked to its end
* `insertAt_keeps`, `insertAt_loses` — what a failed insertion leaves below a node
* `insertMethod_keeps_iff` — when a failed insertion leaves every answer as it was
-/

namespace OvaLib

namespace Trie

variable {V : Type*}

/-! ## Runs in which allocations fail -/

/-- A call with the outcomes of the allocations it attempts. The trie is as the call leaves it,
whatever the call has answered: a caller may go on with a trie after a failure. -/
def stepWith (t : TrieImpl V) : Allocator × Call V → TrieImpl V
  | (a, .insert word value) => (insertMethod a t word value).1
  | (_, .delete word) => (deleteMethod t word).1

/-- The trie a run of such calls leaves. -/
def runWith (t : TrieImpl V) (calls : List (Allocator × Call V)) : TrieImpl V :=
  calls.foldl stepWith t

/-- **What holds of the inline tails of every reachable trie**: a tail is one word, at a node
without children. It survives failed insertions too, since a tail is cleared before its chain is
made. -/
def TailsOk : TrieNode V → Prop
  | .null => True
  | .node data children =>
    (data.sso ≠ [] → data.isEnd = true ∧ data.subtreeWords = 1 ∧ ∀ c, children c = .null) ∧
      ∀ c, TailsOk (children c)

theorem TailsOk.of_sso_nil {data : NodeData V} {children : Byte → TrieNode V}
    (hsso : data.sso = []) (h : ∀ c, TailsOk (children c)) : TailsOk (.node data children) :=
  ⟨fun hne => absurd hsso hne, h⟩

theorem TailsOk.update {children : Byte → TrieNode V} (h : ∀ c, TailsOk (children c)) (c : Byte)
    {x : TrieNode V} (hx : TailsOk x) (k : Byte) : TailsOk (Function.update children c x k) := by
  by_cases hk : k = c
  · subst hk
    rwa [Function.update_self]
  · rw [Function.update_of_ne hk]
    exact h k

theorem tailsOk_trieNodeCreate : TailsOk (trieNodeCreate : TrieNode V) :=
  .of_sso_nil rfl fun _ => trivial

theorem tailsOk_inlineNode (value : Option V) (rest : List Byte) :
    TailsOk (inlineNode value rest) :=
  ⟨fun _ => ⟨rfl, rfl, fun _ => rfl⟩, fun _ => trivial⟩

/-- One step of a chain whose node is to be had. -/
theorem expandChain_cons (isEnd : Bool) (value : Option V) {a : Allocator}
    (h : a.outcome 0 = true) (c : Byte) (suffix : List Byte) (data : NodeData V)
    (children : Byte → TrieNode V) :
    let chain := expandChain isEnd value (a.skip 1) suffix
      { NodeData.empty with subtreeWords := 1 } fun _ => .null
    expandChain isEnd value a (c :: suffix) data children =
      (.node { data with childCount := data.childCount + 1 } (Function.update children c chain.1),
        chain.2.1, chain.2.2) := by
  have halloc : a.alloc = (true, a.skip 1) := by
    rw [← h]
    rfl
  simp only [expandChain, halloc]

theorem expandChain_cons_of_failed (isEnd : Bool) (value : Option V) {a : Allocator}
    (h : a.outcome 0 = false) (c : Byte) (suffix : List Byte) (data : NodeData V)
    (children : Byte → TrieNode V) :
    expandChain isEnd value a (c :: suffix) data children =
      (.node data children, false, a.skip 1) := by
  have halloc : a.alloc = (false, a.skip 1) := by
    rw [← h]
    rfl
  simp only [expandChain, halloc]

/-- A chain of fresh nodes, as far as it got, has no inline tails. This is so for a chain that stops
half-way as well as for one that reaches its end. -/
theorem expandChain_tails (isEnd : Bool) (value : Option V) (suffix : List Byte) (a : Allocator)
    (data : NodeData V) {children : Byte → TrieNode V} (hsso : data.sso = [])
    (h : ∀ c, TailsOk (children c)) :
    ∃ data' children', (expandChain isEnd value a suffix data children).1 = .node data' children' ∧
      data'.sso = [] ∧ ∀ c, TailsOk (children' c) := by
  induction suffix generalizing a data children with
  | nil => exact ⟨_, _, rfl, hsso, h⟩
  | cons c suffix ih =>
    cases halloc : a.outcome 0 with
    | false =>
      rw [expandChain_cons_of_failed _ _ halloc]
      exact ⟨data, children, rfl, hsso, h⟩
    | true =>
      obtain ⟨data₁, children₁, heq, hsso₁, hchildren₁⟩ :=
        @ih (a.skip 1) { NodeData.empty with subtreeWords := 1 } (fun _ => .null) rfl
          fun _ => trivial
      rw [expandChain_cons _ _ halloc]
      refine ⟨_, _, rfl, hsso, TailsOk.update h c ?_⟩
      rw [heq]
      exact .of_sso_nil hsso₁ hchildren₁

/-- Expanding an inline tail, whether or not it succeeds, leaves a node without one. -/
theorem ssoExpand_tails (a : Allocator) {data : NodeData V} {children : Byte → TrieNode V}
    (h : TailsOk (.node data children)) :
    ∃ data' children' ok a', ssoExpand a data children = (.node data' children', ok, a') ∧
      data'.sso = [] ∧ ∀ c, TailsOk (children' c) := by
  have hnode : ∃ data' children', (ssoExpand a data children).1 = .node data' children' ∧
      data'.sso = [] ∧ ∀ c, TailsOk (children' c) := by
    rw [ssoExpand]
    split
    · next hsso => exact ⟨data, children, rfl, hsso, h.2⟩
    · exact expandChain_tails _ _ _ _ _ rfl h.2
  obtain ⟨data', children', heq, hsso, hchildren⟩ := hnode
  exact ⟨data', children', _, _, Prod.ext heq rfl, hsso, hchildren⟩

theorem tailsOk_insertAt (value : Option V) (word : List Byte) (a : Allocator)
    {node : TrieNode V} (h : TailsOk node) : TailsOk (insertAt value a word node).1 := by
  induction word generalizing a node with
  | nil =>
    cases node with
    | null => trivial
    | node data₀ children₀ =>
      obtain ⟨data, children, ok, a', hexp, hsso, hchildren⟩ := ssoExpand_tails a h
      cases ok with
      | false =>
        simp only [insertAt, hexp]
        exact .of_sso_nil hsso hchildren
      | true =>
        simp only [insertAt, hexp]
        split
        · exact .of_sso_nil hsso hchildren
        · exact .of_sso_nil (by simpa using hsso) hchildren
  | cons c rest ih =>
    cases node with
    | null => trivial
    | node data₀ children₀ =>
      obtain ⟨data, children, ok, a', hexp, hsso, hchildren⟩ := ssoExpand_tails a h
      cases ok with
      | false =>
        simp only [insertAt, hexp]
        exact .of_sso_nil hsso hchildren
      | true =>
        simp only [insertAt, hexp]
        split
        · rcases halloc : a'.alloc with ⟨created, a''⟩
          cases created with
          | false => exact .of_sso_nil hsso hchildren
          | true =>
            dsimp only
            split
            · exact .of_sso_nil (by simpa using hsso)
                (TailsOk.update hchildren c (tailsOk_inlineNode value rest))
            · exact .of_sso_nil (by simpa using hsso)
                (TailsOk.update hchildren c (ih a'' tailsOk_trieNodeCreate))
        · exact .of_sso_nil (by simpa using hsso)
            (TailsOk.update hchildren c (ih a' (hchildren c)))

theorem tailsOk_deleteRecursive (word : List Byte) (isRoot : Bool) {node : TrieNode V}
    (h : TailsOk node) : TailsOk (deleteRecursive word isRoot node).1 := by
  induction word generalizing isRoot node with
  | nil =>
    cases node with
    | null => trivial
    | node data children =>
      rw [deleteRecursive]
      split
      · exact h
      · next hsso =>
        split
        · exact h
        · exact .of_sso_nil (not_not.mp hsso) h.2
  | cons c rest ih =>
    cases node with
    | null => trivial
    | node data children =>
      rw [deleteRecursive]
      split
      · split
        · split
          · exact h
          · exact .of_sso_nil rfl h.2
        · exact h
      · next hsso =>
        have hchild := ih false (h.2 c)
        rcases hres : deleteRecursive rest false (children c) with ⟨child, removed, free⟩
        rw [hres] at hchild
        cases removed with
        | false => exact .of_sso_nil (not_not.mp hsso) (TailsOk.update h.2 c hchild)
        | true =>
          refine .of_sso_nil ?_ (TailsOk.update h.2 c ?_)
          · cases free <;> exact not_not.mp hsso
          · cases free with
            | true => trivial
            | false => exact hchild

/-- The path array, on the stack or allocated. -/
def pathArray (a : Allocator) (word : List Byte) : Bool × Allocator :=
  if word.length + 2 ≤ pathStackSize then (true, a) else a.alloc

/-- An insertion fails at once without its path array, and otherwise if the descent does. In either
case it does not count the word. -/
theorem insertMethod_cases (a : Allocator) (t : TrieImpl V) (word : List Byte)
    (value : Option V) :
    ((pathArray a word).1 = false ∧ insertMethod a t word value = (t, .errorMemory)) ∨
      ((pathArray a word).1 = true ∧
        (insertMethod a t word value).1.root =
          (insertAt value (pathArray a word).2 word t.root).1 ∧
        ((insertMethod a t word value).2 = .errorMemory ↔
          (insertAt value (pathArray a word).2 word t.root).2.1 = .memoryError) ∧
        ((insertMethod a t word value).2 = .errorMemory →
          (insertMethod a t word value).1.wordCount = t.wordCount)) := by
  rcases hpath : pathArray a word with ⟨ok, a'⟩
  have hpath' : (if word.length + 2 ≤ pathStackSize then (true, a) else a.alloc) = (ok, a') :=
    hpath
  simp only [insertMethod, hpath']
  cases ok with
  | false => exact .inl ⟨rfl, rfl⟩
  | true =>
    refine .inr ⟨rfl, ?_⟩
    rcases insertAt value a' word t.root with ⟨root, outcome, a''⟩
    cases outcome <;> simp

theorem tailsOk_stepWith {t : TrieImpl V} (h : TailsOk t.root) (call : Allocator × Call V) :
    TailsOk (stepWith t call).root := by
  obtain ⟨a, call⟩ := call
  cases call with
  | insert word value =>
    rcases insertMethod_cases a t word value with ⟨-, heq⟩ | ⟨-, hroot, -⟩
    · change TailsOk (insertMethod a t word value).1.root
      rw [heq]
      exact h
    · change TailsOk (insertMethod a t word value).1.root
      rw [hroot]
      exact tailsOk_insertAt value word _ h
  | delete word =>
    have hnode := tailsOk_deleteRecursive word true h
    change TailsOk (deleteMethod t word).1.root
    rcases hres : deleteRecursive word true t.root with ⟨node, removed, free⟩
    rw [hres] at hnode
    rw [deleteMethod]
    rw [hres]
    cases removed <;> exact hnode

theorem tailsOk_runWith (calls : List (Allocator × Call V)) {t : TrieImpl V}
    (h : TailsOk t.root) : TailsOk (runWith t calls).root := by
  induction calls generalizing t with
  | nil => exact h
  | cons call calls ih => exact ih (tailsOk_stepWith h call)

/-! ## What the queries read below a node

Two subtrees are compared through the queries and not as values, since a tail that is unpacked is
another value with the same answers. -/

/-- `trie_search_method` from a node, as a search in the trie that has this node as its root. -/
def searchAt (node : TrieNode V) (word : List Byte) : Option V :=
  searchMethod ⟨node, 0⟩ word

/-- `trie_get_words_with_prefix_method` from a node, for a prefix that ends in `rest` below it. -/
def listAt (node : TrieNode V) (rest pre : List Byte) : List (List Byte) :=
  let r := walk node rest
  if r.subtreeWords = 0 then []
  else
    match r with
    | .miss => []
    | .exact node => collectWords node pre
    | .ssoFull data _ => if data.isEnd then [pre] else []
    | .ssoPrefix data consumed => if data.isEnd then [pre ++ data.sso.drop consumed] else []

theorem walk_cons {data : NodeData V} (children : Byte → TrieNode V) (h : data.sso = [])
    (c : Byte) (rest : List Byte) :
    walk (.node data children) (c :: rest) = walk (children c) rest := by
  simp [walk, h]

theorem searchAt_cons {data : NodeData V} (children : Byte → TrieNode V) (h : data.sso = [])
    (c : Byte) (rest : List Byte) :
    searchAt (.node data children) (c :: rest) = searchAt (children c) rest := by
  simp only [searchAt, searchMethod, walk_cons children h]

theorem listAt_nil (data : NodeData V) (children : Byte → TrieNode V) (pre : List Byte) :
    listAt (.node data children) [] pre =
      if data.subtreeWords = 0 then [] else collectWords (.node data children) pre := rfl

theorem listAt_cons {data : NodeData V} (children : Byte → TrieNode V) (h : data.sso = [])
    (c : Byte) (rest pre : List Byte) :
    listAt (.node data children) (c :: rest) pre = listAt (children c) rest pre := by
  simp only [listAt, walk_cons children h]

/-- Two subtrees no query can tell apart: the search for a word, the count of a prefix, and the
words in the order in which they are listed. -/
structure SameBelow (n n' : TrieNode V) : Prop where
  search : ∀ w, searchAt n' w = searchAt n w
  count : ∀ w, (walk n' w).subtreeWords = (walk n w).subtreeWords
  /-- The same words, with the same bytes in front. -/
  collect : ∀ pre, collectWords n' pre = collectWords n pre
  list : ∀ w pre, listAt n' w pre = listAt n w pre

theorem SameBelow.refl (n : TrieNode V) : SameBelow n n :=
  ⟨fun _ => rfl, fun _ => rfl, fun _ => rfl, fun _ _ => rfl⟩

theorem SameBelow.trans {n₁ n₂ n₃ : TrieNode V} (h : SameBelow n₁ n₂) (h' : SameBelow n₂ n₃) :
    SameBelow n₁ n₃ where
  search w := (h'.search w).trans (h.search w)
  count w := (h'.count w).trans (h.count w)
  collect pre := (h'.collect pre).trans (h.collect pre)
  list w pre := (h'.list w pre).trans (h.list w pre)

/-- A node is read through its fields and its children. -/
theorem SameBelow.of_children {data data' : NodeData V} {children children' : Byte → TrieNode V}
    (hsso : data.sso = []) (hsso' : data'.sso = []) (hend : data'.isEnd = data.isEnd)
    (hvalue : data'.value = data.value) (hwords : data'.subtreeWords = data.subtreeWords)
    (h : ∀ c, SameBelow (children c) (children' c)) :
    SameBelow (.node data children) (.node data' children') := by
  have hcollect : ∀ pre, collectWords (.node data' children') pre =
      collectWords (.node data children) pre := by
    intro pre
    simp only [collectWords, hsso, hsso', hend, (h _).collect]
  refine ⟨fun w => ?_, fun w => ?_, hcollect, fun w pre => ?_⟩
  · cases w with
    | nil => simp [searchAt, searchMethod, walk, hsso, hsso', hend, hvalue]
    | cons c rest => rw [searchAt_cons _ hsso', searchAt_cons _ hsso, (h c).search]
  · cases w with
    | nil => exact hwords
    | cons c rest => rw [walk_cons _ hsso', walk_cons _ hsso, (h c).count]
  · cases w with
    | nil => rw [listAt_nil, listAt_nil, hwords, hcollect]
    | cons c rest => rw [listAt_cons _ hsso', listAt_cons _ hsso, (h c).list]

/-- A new node that marks no word is read as no node. This is why a failed insertion may leave the
nodes it has made for its own word. -/
theorem SameBelow.of_null {data : NodeData V} {children : Byte → TrieNode V}
    (hsso : data.sso = []) (hend : data.isEnd = false) (hwords : data.subtreeWords = 0)
    (h : ∀ c, SameBelow .null (children c)) :
    SameBelow .null (.node data children) := by
  refine ⟨fun w => ?_, fun w => ?_, fun pre => ?_, fun w pre => ?_⟩
  · cases w with
    | nil => simp [searchAt, searchMethod, walk, hend]
    | cons c rest => rw [searchAt_cons _ hsso, (h c).search]; rfl
  · cases w with
    | nil => exact hwords
    | cons c rest => rw [walk_cons _ hsso, (h c).count]; rfl
  · have hnone : ∀ c p, collectWords (children c) p = [] := fun c p => by
      rw [(h c).collect, collectWords]
    simp [collectWords, hsso, hend, hnone]
  · cases w with
    | nil =>
      rw [listAt_nil, if_pos hwords]
      rfl
    | cons c rest => rw [listAt_cons _ hsso, (h c).list]; rfl

theorem sameBelow_update {children : Byte → TrieNode V} {c : Byte} {x : TrieNode V}
    (h : SameBelow (children c) x) (k : Byte) :
    SameBelow (children k) (Function.update children c x k) := by
  by_cases hk : k = c
  · subst hk
    rwa [Function.update_self]
  · rw [Function.update_of_ne hk]
    exact .refl _

/-! ## A tail that is unpacked -/

/-- How a childless word node is read: an inline tail, or an empty one, is the only word. -/
theorem answers_inline {data : NodeData V} {children : Byte → TrieNode V}
    (hend : data.isEnd = true) (hwords : data.subtreeWords = 1) (hnull : ∀ c, children c = .null)
    (w : List Byte) :
    searchAt (.node data children) w = (if w = data.sso then data.value else none) ∧
      (walk (.node data children) w).subtreeWords = (if w <+: data.sso then 1 else 0) ∧
      (∀ pre, collectWords (.node data children) pre = [pre ++ data.sso]) ∧
      ∀ pre, listAt (.node data children) w pre =
        if w <+: data.sso then [pre ++ data.sso.drop w.length] else [] := by
  have hcollect : ∀ pre, collectWords (.node data children) pre = [pre ++ data.sso] := by
    intro pre
    by_cases hsso : data.sso = []
    · simp [collectWords, hsso, hend, hnull]
    · simp [collectWords, hsso, hend]
  cases w with
  | nil =>
    refine ⟨?_, by simpa [walk, WalkResult.subtreeWords] using hwords, hcollect, fun pre => ?_⟩
    · by_cases hsso : data.sso = []
      · simp [searchAt, searchMethod, walk, hsso, hend]
      · simp [searchAt, searchMethod, walk, hsso, Ne.symm hsso]
    · simp [listAt_nil, hwords, hcollect]
  | cons c rest =>
    by_cases hsso : data.sso = []
    · have hmiss : walk (.node data children) (c :: rest) = .miss := by
        rw [walk_cons _ hsso, hnull, walk]
      have hne : ¬ c :: rest <+: data.sso := by simp [hsso]
      refine ⟨?_, ?_, hcollect, fun pre => ?_⟩
      · simp [searchAt, searchMethod, hmiss, hsso]
      · rw [hmiss, if_neg hne]
        rfl
      · rw [if_neg hne, listAt, hmiss]
        rfl
    · by_cases hpre : c :: rest <+: data.sso
      · obtain ⟨u, hu⟩ := hpre
        cases u with
        | nil =>
          rw [List.append_nil] at hu
          have hfull : walk (.node data children) (c :: rest) =
              .ssoFull data (c :: rest).length := by
            rw [walk, if_pos hsso, ← hu]
            simp
          refine ⟨?_, ?_, hcollect, fun pre => ?_⟩
          · simp [searchAt, searchMethod, hfull, hend, ← hu]
          · simp [hfull, WalkResult.subtreeWords, hwords, ← hu]
          · simp [listAt, hfull, WalkResult.subtreeWords, hwords, hend, ← hu]
        | cons d u =>
          have hbefore : walk (.node data children) (c :: rest) =
              .ssoPrefix data (c :: rest).length := by
            rw [walk, if_pos hsso, ← hu]
            simp
          have hlt : c :: rest ≠ data.sso := by
            rw [← hu]
            simp
          refine ⟨?_, ?_, hcollect, fun pre => ?_⟩
          · simp [searchAt, searchMethod, hbefore, hlt]
          · rw [hbefore, if_pos ⟨d :: u, hu⟩]
            exact hwords
          · rw [if_pos ⟨d :: u, hu⟩]
            simp [listAt, hbefore, WalkResult.subtreeWords, hwords, hend]
      · have hmiss : walk (.node data children) (c :: rest) = .miss := by
          rw [walk, if_pos hsso, if_neg]
          rintro ⟨-, htake⟩
          exact hpre (htake ▸ List.take_prefix _ _)
        have hne : c :: rest ≠ data.sso := fun heq => hpre (heq ▸ List.prefix_rfl)
        refine ⟨?_, ?_, hcollect, fun pre => ?_⟩
        · simp [searchAt, searchMethod, hmiss, hne]
        · rw [hmiss, if_neg hpre]
          rfl
        · rw [if_neg hpre, listAt, hmiss]
          rfl

/-- Only one of the children holds a word. -/
theorem collectWords_single {data : NodeData V} {children : Byte → TrieNode V}
    (hsso : data.sso = []) (hend : data.isEnd = false) {c : Byte}
    (hnull : ∀ k, k ≠ c → children k = .null) (pre : List Byte) :
    collectWords (.node data children) pre = collectWords (children c) (pre ++ [c]) := by
  obtain ⟨front, back, hsplit⟩ := List.append_of_mem (List.mem_finRange c)
  have hnodup := List.nodup_finRange 256
  rw [hsplit, List.nodup_append, List.nodup_cons] at hnodup
  obtain ⟨-, ⟨hback, -⟩, hfront⟩ := hnodup
  have hnone : ∀ k, k ≠ c → collectWords (children k) (pre ++ [k]) = [] := fun k hk => by
    rw [hnull k hk, collectWords]
  have hleft : (front.flatMap fun k => collectWords (children k) (pre ++ [k])) = [] :=
    List.flatMap_eq_nil_iff.mpr fun k hk => hnone k (hfront k hk c List.mem_cons_self)
  have hright : (back.flatMap fun k => collectWords (children k) (pre ++ [k])) = [] :=
    List.flatMap_eq_nil_iff.mpr fun k hk => hnone k fun hkc => hback (hkc ▸ hk)
  rw [collectWords, if_neg (not_not.mpr hsso), hsplit, List.flatMap_append, List.flatMap_cons,
    hleft, hright]
  simp [hend]

/-- Unpacking the first byte of a tail: the rest goes inline into the only child. Unpacking a whole
tail is this step again and again. -/
theorem sameBelow_unpack {data : NodeData V} (data' : NodeData V)
    {children : Byte → TrieNode V} {c : Byte} {suffix : List Byte} (hsso : data.sso = c :: suffix)
    (hend : data.isEnd = true) (hwords : data.subtreeWords = 1) (hnull : ∀ k, children k = .null)
    (hsso' : data'.sso = []) (hend' : data'.isEnd = false) (hwords' : data'.subtreeWords = 1) :
    SameBelow (.node data children)
      (.node data' (Function.update children c (inlineNode data.value suffix))) := by
  let inlined : NodeData V := { (NodeData.empty : NodeData V) with
    sso := suffix, isEnd := true, value := data.value, subtreeWords := 1 }
  have hinline := @answers_inline V inlined (fun _ => .null) rfl rfl fun _ => rfl
  change ∀ w, searchAt (inlineNode data.value suffix) w =
      (if w = suffix then data.value else none) ∧
    (walk (inlineNode data.value suffix) w).subtreeWords = (if w <+: suffix then 1 else 0) ∧
    (∀ pre, collectWords (inlineNode data.value suffix) pre = [pre ++ suffix]) ∧
    ∀ pre, listAt (inlineNode data.value suffix) w pre =
      if w <+: suffix then [pre ++ suffix.drop w.length] else [] at hinline
  have hother : ∀ k, k ≠ c →
      Function.update children c (inlineNode data.value suffix) k = .null := fun k hk => by
    rw [Function.update_of_ne hk, hnull]
  have hcollect : ∀ pre, collectWords (.node data' (Function.update children c
      (inlineNode data.value suffix))) pre = collectWords (.node data children) pre := by
    intro pre
    rw [collectWords_single hsso' hend' hother, Function.update_self, (hinline []).2.2.1,
      (answers_inline hend hwords hnull []).2.2.1, hsso]
    simp
  refine ⟨fun w => ?_, fun w => ?_, hcollect, fun w pre => ?_⟩
  · rw [(answers_inline hend hwords hnull w).1, hsso]
    cases w with
    | nil => simp [searchAt, searchMethod, walk, hend']
    | cons k rest =>
      rw [searchAt_cons _ hsso']
      by_cases hk : k = c
      · subst hk
        rw [Function.update_self, (hinline rest).1]
        simp
      · rw [hother k hk]
        simp [searchAt, searchMethod, walk, hk]
  · rw [(answers_inline hend hwords hnull w).2.1, hsso]
    cases w with
    | nil => simpa [walk, WalkResult.subtreeWords] using hwords'
    | cons k rest =>
      rw [walk_cons _ hsso']
      by_cases hk : k = c
      · subst hk
        rw [Function.update_self, (hinline rest).2.1]
        simp
      · rw [hother k hk]
        simp [walk, WalkResult.subtreeWords, hk]
  · cases w with
    | nil =>
      rw [listAt_nil, listAt_nil, hwords, hwords', hcollect]
    | cons k rest =>
      rw [(answers_inline hend hwords hnull _).2.2.2, hsso, listAt_cons _ hsso']
      by_cases hk : k = c
      · subst hk
        rw [Function.update_self, (hinline rest).2.2.2]
        simp
      · rw [hother k hk]
        simp [listAt, walk, WalkResult.subtreeWords, hk]

/-- **A tail that is unpacked to its end** answers as before. The chain is made from the top, and
its last node takes the value and the mark of the word. -/
theorem sameBelow_expandChain (suffix : List Byte) {a : Allocator} (data data' : NodeData V)
    {children : Byte → TrieNode V} (ha : ∀ k < suffix.length, a.outcome k = true)
    (hsso : data.sso = suffix) (hend : data.isEnd = true) (hwords : data.subtreeWords = 1)
    (hnull : ∀ c, children c = .null)
    (hsso' : data'.sso = []) (hend' : data'.isEnd = false) (hwords' : data'.subtreeWords = 1) :
    (expandChain true data.value a suffix data' children).2.1 = true ∧
      SameBelow (.node data children)
        (expandChain true data.value a suffix data' children).1 := by
  induction suffix generalizing a data data' children with
  | nil =>
    exact ⟨rfl, .of_children hsso hsso' hend.symm rfl (hwords'.trans hwords.symm)
      fun c => .refl _⟩
  | cons c suffix ih =>
    rw [expandChain_cons true data.value (ha 0 (by simp))]
    obtain ⟨hok, hsame⟩ := @ih (a.skip 1)
      { NodeData.empty with
        sso := suffix, isEnd := true, value := data.value, subtreeWords := 1 }
      { NodeData.empty with subtreeWords := 1 }
      (fun _ => .null) (fun k hk => ha (k + 1) (by simpa using hk)) rfl rfl rfl
      (fun _ => rfl) rfl rfl rfl
    refine ⟨hok, (sameBelow_unpack { data' with childCount := data'.childCount + 1 }
      hsso hend hwords hnull hsso' hend' hwords').trans ?_⟩
    refine .of_children hsso' hsso' rfl rfl rfl fun k => ?_
    by_cases hk : k = c
    · subst hk
      rw [Function.update_self, Function.update_self]
      exact hsame
    · rw [Function.update_of_ne hk, Function.update_of_ne hk]
      exact .refl _

/-- A tail that is not unpacked to its end has lost its word: the chain ends before the word does.
-/
theorem walk_expandChain_of_failed (isEnd : Bool) (value : Option V) (suffix : List Byte)
    {a : Allocator} (data : NodeData V) {children : Byte → TrieNode V}
    (ha : ∃ k < suffix.length, a.outcome k = false) (hsso : data.sso = [])
    (hnull : ∀ c, children c = .null) :
    (expandChain isEnd value a suffix data children).2.1 = false ∧
      walk (expandChain isEnd value a suffix data children).1 suffix = .miss := by
  induction suffix generalizing a data children with
  | nil =>
    obtain ⟨k, hk, -⟩ := ha
    exact absurd hk (Nat.not_lt_zero k)
  | cons c suffix ih =>
    cases halloc : a.outcome 0 with
    | false =>
      rw [expandChain_cons_of_failed _ _ halloc, walk_cons _ hsso, hnull, walk]
      exact ⟨rfl, rfl⟩
    | true =>
      rw [expandChain_cons _ _ halloc]
      dsimp only
      rw [walk_cons _ (by exact hsso), Function.update_self]
      obtain ⟨k, hk, hfail⟩ := ha
      cases k with
      | zero => rw [halloc] at hfail; cases hfail
      | succ k => exact ih _ ⟨k, by simpa using hk, hfail⟩ rfl fun _ => rfl

/-! ## The descent of a failed insertion

Both halves of the equivalence, by induction on the word. -/

/-- The inline tail the descent for a word meets, empty when there is none. It is a function of the
trie before the call and of the word only, so the condition of the main theorem does not run the
call. -/
def inlineTail : TrieNode V → List Byte → List Byte
  | .null, _ => []
  | .node data _, [] => data.sso
  | .node data children, c :: rest =>
    if data.sso = [] then inlineTail (children c) rest else data.sso

theorem inlineTail_of_sso {data : NodeData V} (children : Byte → TrieNode V) (h : data.sso ≠ [])
    (w : List Byte) : inlineTail (.node data children) w = data.sso := by
  cases w with
  | nil => rfl
  | cons c rest => rw [inlineTail, if_neg h]

theorem inlineTail_cons {data : NodeData V} (children : Byte → TrieNode V) (h : data.sso = [])
    (c : Byte) (rest : List Byte) :
    inlineTail (.node data children) (c :: rest) = inlineTail (children c) rest := by
  rw [inlineTail, if_pos h]

/-- There is no tail in a chain of fresh nodes. -/
theorem inlineTail_expandChain (isEnd : Bool) (value : Option V) (suffix : List Byte)
    (a : Allocator) (data : NodeData V) {children : Byte → TrieNode V} (hsso : data.sso = [])
    (hnull : ∀ c, children c = .null) (w : List Byte) :
    inlineTail (expandChain isEnd value a suffix data children).1 w = [] := by
  induction suffix generalizing a data children w with
  | nil =>
    cases w with
    | nil => exact hsso
    | cons c rest => rw [expandChain, inlineTail_cons _ (by exact hsso), hnull, inlineTail]
  | cons c suffix ih =>
    cases halloc : a.outcome 0 with
    | false =>
      rw [expandChain_cons_of_failed _ _ halloc]
      cases w with
      | nil => exact hsso
      | cons k rest => rw [inlineTail_cons _ hsso, hnull, inlineTail]
    | true =>
      rw [expandChain_cons _ _ halloc]
      cases w with
      | nil => exact hsso
      | cons k rest =>
        dsimp only
        rw [inlineTail_cons _ (by exact hsso)]
        by_cases hk : k = c
        · subst hk
          rw [Function.update_self]
          exact ih (a.skip 1) _ rfl (fun _ => rfl) rest
        · rw [Function.update_of_ne hk, hnull, inlineTail]

/-- **Expanding the tail of a node**, when its nodes are to be had. The descent goes on below, and
of what it may still meet there is nothing that has to be unpacked. -/
theorem ssoExpand_of_alloc {a : Allocator} {data : NodeData V} {children : Byte → TrieNode V}
    (h : TailsOk (.node data children)) (ha : ∀ k < data.sso.length, a.outcome k = true) :
    ∃ data' children' a', ssoExpand a data children = (.node data' children', true, a') ∧
      data'.sso = [] ∧ TailsOk (.node data' children') ∧
      SameBelow (.node data children) (.node data' children') ∧
      ∀ c rest, (∀ k < (inlineTail (.node data children) (c :: rest)).length,
        a.outcome k = true) → ∀ k < (inlineTail (children' c) rest).length,
          a'.outcome k = true := by
  by_cases hsso : data.sso = []
  · refine ⟨data, children, a, by rw [ssoExpand, if_pos hsso], hsso, h, .refl _,
      fun c rest hk => ?_⟩
    rwa [inlineTail_cons _ hsso] at hk
  · obtain ⟨hend, hwords, hnull⟩ := h.1 hsso
    obtain ⟨hok, hsame⟩ := sameBelow_expandChain data.sso data
      { data with sso := [], isEnd := false, value := none } ha rfl hend hwords hnull
      rfl rfl hwords
    obtain ⟨data', children', hnode, hsso', hchildren⟩ :=
      expandChain_tails true data.value data.sso a
        { data with sso := [], isEnd := false, value := none } rfl h.2
    have hnone := inlineTail_expandChain true data.value data.sso a
      { data with sso := [], isEnd := false, value := none } rfl hnull
    rw [hnode] at hsame hnone
    refine ⟨data', children', (expandChain true data.value a data.sso
      { data with sso := [], isEnd := false, value := none } children).2.2, ?_, hsso',
      .of_sso_nil hsso' hchildren, hsame, fun c rest _ k hk => ?_⟩
    · rw [ssoExpand, if_neg hsso, hend]
      exact Prod.ext hnode (Prod.ext hok rfl)
    · have hrest := hnone (c :: rest)
      rw [inlineTail_cons _ hsso'] at hrest
      rw [hrest] at hk
      exact absurd hk (Nat.not_lt_zero k)

/-- A failed expansion: the node keeps no tail, and the word of the tail is not found in it. -/
theorem ssoExpand_of_failed {a : Allocator} {data : NodeData V} {children : Byte → TrieNode V}
    (h : TailsOk (.node data children)) (ha : ∃ k < data.sso.length, a.outcome k = false) :
    ∃ node a', ssoExpand a data children = (node, false, a') ∧
      (walk (.node data children) data.sso).subtreeWords = 1 ∧ walk node data.sso = .miss := by
  have hsso : data.sso ≠ [] := by
    rintro hnil
    obtain ⟨k, hk, -⟩ := ha
    rw [hnil] at hk
    exact absurd hk (Nat.not_lt_zero k)
  obtain ⟨hend, hwords, hnull⟩ := h.1 hsso
  obtain ⟨hok, hmiss⟩ := walk_expandChain_of_failed data.isEnd data.value data.sso
    { data with sso := [], isEnd := false, value := none } ha rfl hnull
  refine ⟨_, (expandChain data.isEnd data.value a data.sso
    { data with sso := [], isEnd := false, value := none } children).2.2, ?_, ?_, hmiss⟩
  · rw [ssoExpand, if_neg hsso]
    exact Prod.ext rfl (Prod.ext hok rfl)
  · rw [(answers_inline hend hwords hnull _).2.1, if_pos List.prefix_rfl]

/-- The node of a new word, before the word is in it. -/
theorem sameBelow_trieNodeCreate : SameBelow .null (trieNodeCreate : TrieNode V) :=
  .of_null rfl rfl rfl fun _ => .refl _

/-- **An insertion that fails with every tail unpacked** leaves what the queries read, by induction
on the word. -/
theorem insertAt_keeps (value : Option V) (word : List Byte) {a : Allocator}
    {node : TrieNode V} (h : TailsOk node)
    (ha : ∀ k < (inlineTail node word).length, a.outcome k = true)
    (hout : (insertAt value a word node).2.1 = .memoryError) :
    SameBelow node (insertAt value a word node).1 := by
  induction word generalizing a node with
  | nil =>
    cases node with
    | null => exact .refl _
    | node data₀ children₀ =>
      obtain ⟨data, children, a', hexp, -⟩ := ssoExpand_of_alloc h ha
      simp only [insertAt, hexp] at hout
      split at hout <;> cases hout
  | cons c rest ih =>
    cases node with
    | null => exact .refl _
    | node data₀ children₀ =>
      have hown : ∀ k < data₀.sso.length, a.outcome k = true := by
        intro k hk
        have hne : data₀.sso ≠ [] := List.ne_nil_of_length_pos (Nat.zero_lt_of_lt hk)
        exact ha k (by rwa [inlineTail_of_sso _ hne])
      obtain ⟨data, children, a', hexp, hsso, htails, hsame, htail⟩ := ssoExpand_of_alloc h hown
      refine hsame.trans ?_
      simp only [insertAt, hexp] at hout ⊢
      split at hout
      · next hnull =>
        rw [if_pos hnull]
        rw [isNull_eq_true] at hnull
        rcases halloc : a'.alloc with ⟨created, a''⟩
        rw [halloc] at hout
        cases created with
        | false => exact .refl _
        | true =>
          dsimp only at hout ⊢
          split at hout
          · cases hout
          · next hfits =>
            -- a node for this byte was created, and a later one was not to be had
            rw [if_neg hfits]
            dsimp only at hout
            have hchild := ih (a := a'') (tailsOk_trieNodeCreate (V := V))
              (by cases rest <;> simp [trieNodeCreate, inlineTail, NodeData.empty]) hout
            rw [hout]
            refine .of_children hsso hsso rfl rfl rfl fun k => sameBelow_update ?_ k
            rw [hnull]
            exact sameBelow_trieNodeCreate.trans hchild
      · next hnull =>
        rw [if_neg hnull]
        dsimp only at hout ⊢
        have hchild := ih (htails.2 c) (htail c rest ha) hout
        rw [hout]
        exact .of_children hsso hsso rfl rfl rfl fun k => sameBelow_update hchild k

/-- **An insertion that leaves a tail half unpacked** fails, and some word that was counted is
not found any more. -/
theorem insertAt_loses (value : Option V) (word : List Byte) {a : Allocator}
    {node : TrieNode V} (h : TailsOk node)
    (ha : ∃ k < (inlineTail node word).length, a.outcome k = false) :
    (insertAt value a word node).2.1 = .memoryError ∧
      ∃ w, (walk node w).subtreeWords = 1 ∧ walk (insertAt value a word node).1 w = .miss := by
  induction word generalizing a node with
  | nil =>
    cases node with
    | null =>
      obtain ⟨k, hk, -⟩ := ha
      exact absurd hk (Nat.not_lt_zero k)
    | node data children =>
      obtain ⟨node, a', hexp, hcount, hmiss⟩ := ssoExpand_of_failed h ha
      simp only [insertAt, hexp]
      exact ⟨trivial, data.sso, hcount, hmiss⟩
  | cons c rest ih =>
    cases node with
    | null =>
      obtain ⟨k, hk, -⟩ := ha
      exact absurd hk (Nat.not_lt_zero k)
    | node data children =>
      by_cases hsso : data.sso = []
      · rw [inlineTail_cons _ hsso] at ha
        have hnull : (children c).isNull = false := by
          rw [isNull_eq_false]
          intro heq
          obtain ⟨k, hk, -⟩ := ha
          rw [heq] at hk
          exact absurd hk (Nat.not_lt_zero k)
        obtain ⟨hout, w, hcount, hmiss⟩ := ih (h.2 c) ha
        have hexp : ssoExpand a data children = (.node data children, true, a) := by
          rw [ssoExpand, if_pos hsso]
        simp only [insertAt, hexp, hnull, Bool.false_eq_true, if_false, hout]
        refine ⟨trivial, c :: w, by rwa [walk_cons _ hsso], ?_⟩
        rw [walk_cons _ (by simpa using hsso), Function.update_self, hmiss]
      · rw [inlineTail_of_sso _ hsso] at ha
        obtain ⟨node, a', hexp, hcount, hmiss⟩ := ssoExpand_of_failed h ha
        simp only [insertAt, hexp]
        exact ⟨trivial, data.sso, hcount, hmiss⟩

/-! ## The whole call -/

/-- Every query answers as before, the count of all words included, which is read off the trie and
not off its nodes. -/
structure SameAnswers (t t' : TrieImpl V) : Prop where
  search : ∀ s, searchMethod t' s = searchMethod t s
  startsWith : ∀ s, startsWithMethod t' s = startsWithMethod t s
  countPrefixes : ∀ s, countPrefixesMethod t' s = countPrefixesMethod t s
  countWords : countWordsMethod t' = countWordsMethod t
  getWordsWithPrefix : ∀ s, getWordsWithPrefixMethod t' s = getWordsWithPrefixMethod t s

/-- The list of a prefix is read off the node the prefix leads to. -/
theorem getWordsWithPrefixMethod_eq_listAt (t : TrieImpl V) (s : List Byte) :
    getWordsWithPrefixMethod t s =
      if int32 (walk t.root s).subtreeWords = 0 then [] else (listAt t.root s s).take intMax := by
  rw [getWordsWithPrefixMethod]
  split
  · rfl
  · next hne =>
    have hpos : (walk t.root s).subtreeWords ≠ 0 := fun hzero =>
      hne (by rw [hzero]; exact int32_natCast (Nat.zero_le _))
    rw [listAt, if_neg hpos]
    cases walk t.root s <;> rfl

theorem SameBelow.sameAnswers {t t' : TrieImpl V} (h : SameBelow t.root t'.root)
    (hcount : t'.wordCount = t.wordCount) : SameAnswers t t' := by
  have hpre : ∀ s, countPrefixesMethod t' s = countPrefixesMethod t s := fun s => by
    rw [countPrefixesMethod_eq_walk, countPrefixesMethod_eq_walk, h.count]
  refine ⟨fun s => h.search s, fun s => ?_, hpre, congrArg (fun n : ℕ => int32 n) hcount,
    fun s => ?_⟩
  · rw [startsWithMethod_eq_walk, startsWithMethod_eq_walk, h.count]
  · rw [getWordsWithPrefixMethod_eq_listAt, getWordsWithPrefixMethod_eq_listAt, h.count, h.list]

/-- **When a failed insertion leaves every answer as it was**: exactly when it could not allocate
its path array, or had every node for the tail its descent meets. -/
theorem insertMethod_keeps_iff (calls : List (Allocator × Call V)) (a : Allocator)
    (word : List Byte) (value : Option V) :
    let t := runWith (createTrie : TrieImpl V) calls
    ((insertMethod a t word value).2 = .errorMemory →
        SameAnswers t (insertMethod a t word value).1) ↔
      ((pathArray a word).1 = true →
        ∀ k < (inlineTail t.root word).length, (pathArray a word).2.outcome k = true) := by
  intro t
  have htails : TailsOk t.root := tailsOk_runWith calls tailsOk_trieNodeCreate
  rcases insertMethod_cases a t word value with ⟨hpath, heq⟩ | ⟨hpath, hroot, hcode, hcount⟩
  · rw [heq]
    refine iff_of_true (fun _ => (SameBelow.refl t.root).sameAnswers rfl) fun htrue => ?_
    rw [hpath] at htrue
    cases htrue
  · constructor
    · intro hkeeps _ k hk
      by_contra hfail
      rw [Bool.not_eq_true] at hfail
      obtain ⟨hout, w, hone, hmiss⟩ := insertAt_loses value word htails ⟨k, hk, hfail⟩
      have hsame := (hkeeps (hcode.mpr hout)).countPrefixes w
      rw [countPrefixesMethod_eq_walk, countPrefixesMethod_eq_walk, hroot, hmiss, hone] at hsame
      have hwrong : int32 (0 : ℕ) = int32 (1 : ℕ) := hsame
      exact absurd hwrong (by decide)
    · intro ha herr
      refine SameBelow.sameAnswers ?_ (hcount herr)
      rw [hroot]
      exact insertAt_keeps value word htails (ha hpath) (hcode.mp herr)

/-- With `abc` stored inline, an insertion of `ad` that is refused its second node loses `abc`. -/
theorem insertMethod_loses_word :
    let a : Allocator := ⟨fun n => n ≠ 1⟩
    let t := runWith (createTrie : TrieImpl ℕ) [(.always, .insert [97, 98, 99] (some 7))]
    (insertMethod a t [97, 100] (some 8)).2 = .errorMemory ∧
      searchMethod t [97, 98, 99] = some 7 ∧
      searchMethod (insertMethod a t [97, 100] (some 8)).1 [97, 98, 99] = none ∧
      countWordsMethod (insertMethod a t [97, 100] (some 8)).1 = 1 := by
  decide +kernel

end Trie

end OvaLib
