import Mathlib.Data.Fin.Basic
import Mathlib.Data.List.FinRange
import OvaLib.Types

/-!
# The trie

`trie.c`. A node has 256 children indexed by the next byte, and may hold a short tail of at most 15
bytes inline instead of a chain of nodes (the `sso` field). An inline tail is expanded into nodes as
soon as another word passes through or ends at its node.

## The contract

A trie binds words, strings without their terminator, to values. An insertion binds a word anew or
for the first time, and a deletion says whether there was anything to remove. A search returns the
value. There are two kinds of questions about prefixes: whether there is a word with a prefix, and
how many there are, or which. Each node counts the words below it, so that the number is read off
and not computed.

## Implementation notes

The 256-entry pointer array of a node is a function into nodes, with `null` for `NULL`. A word is
the list of its bytes. The path array of `insert`, whose entries are incremented once a new word is
in, is the recursion here: a node increments its counter when the call on its child reports a new
word. The length of an inline tail is that of the list.

The two counts that are returned are `size_t`s in the nodes and cast to `int` by the methods.
`trie_get_words_with_prefix_method` casts its count too, before it compares it with zero. With more
than `INT_MAX` words the answers are those of the casts.
-/

namespace OvaLib

namespace Trie

/-- An `unsigned char`. -/
abbrev Byte := Fin 256

/-- `TRIE_SSO_MAX`. -/
def ssoMax : ℕ := 15

/-- `TRIE_PATH_STACK_SIZE`: a longer path array is allocated. -/
def pathStackSize : ℕ := 64

/-- The fields of a `trie_node` other than its children. -/
structure NodeData (V : Type*) where
  isEnd : Bool
  /-- `NULL` or a pointer, whether or not the node ends a word. -/
  value : Option V
  /-- The number of words below the node, itself included. -/
  subtreeWords : ℕ
  childCount : ℕ
  /-- `sso_suffix`, of length `sso_len`. -/
  sso : List Byte

/-- A `trie_node *`. -/
inductive TrieNode (V : Type*)
  | null
  | node (data : NodeData V) (children : Byte → TrieNode V)

variable {V : Type*}

/-- The pointer is `NULL`. -/
def TrieNode.isNull : TrieNode V → Bool
  | .null => true
  | .node .. => false

@[simp] theorem isNull_null : (TrieNode.null : TrieNode V).isNull = true := rfl

@[simp] theorem isNull_node (data : NodeData V) (children : Byte → TrieNode V) :
    (TrieNode.node data children).isNull = false := rfl

/-- The scalar fields `calloc` leaves in a node. -/
def NodeData.empty : NodeData V := ⟨false, none, 0, 0, []⟩

/-- `trie_node_create`: a zeroed node. -/
def trieNodeCreate : TrieNode V := .node .empty fun _ => .null

/-- `trie_impl`. -/
structure TrieImpl (V : Type*) where
  root : TrieNode V
  wordCount : ℕ

/-- `create_trie`. -/
def createTrie : TrieImpl V := ⟨trieNodeCreate, 0⟩

/-! ## Expanding an inline tail

A node is allocated for every byte of the tail. The word moves to the last of them. When one is not
to be had, the node has lost its tail by then and the word with it. -/

/-- The loop of `sso_expand` below a node with fields `data` and children `children`: hang a
chain of fresh nodes for the bytes of the tail, and mark its last node. The flag says whether
every allocation succeeded; a failure leaves the chain as far as it got. -/
def expandChain (isEnd : Bool) (value : Option V) :
    Allocator → List Byte → NodeData V → (Byte → TrieNode V) → TrieNode V × Bool × Allocator
  | a, [], data, children => (.node { data with isEnd := isEnd, value := value } children, true, a)
  | a, c :: suffix, data, children =>
    match a.alloc with
    | (false, a') => (.node data children, false, a')
    | (true, a') =>
      let (child, ok, a'') :=
        expandChain isEnd value a' suffix { NodeData.empty with subtreeWords := 1 } fun _ => .null
      (.node { data with childCount := data.childCount + 1 } (Function.update children c child),
        ok, a'')

/-- `sso_expand`. -/
def ssoExpand (a : Allocator) (data : NodeData V) (children : Byte → TrieNode V) :
    TrieNode V × Bool × Allocator :=
  if data.sso = [] then (.node data children, true, a)
  else
    expandChain data.isEnd data.value a data.sso
      { data with sso := [], isEnd := false, value := none }
      children

/-! ## Walking

A walk may end at a node, in the middle of an inline tail, at the end of one, or nowhere. -/

/-- `walk_result_t` with its output parameters. -/
inductive WalkResult (V : Type*)
  | exact (node : TrieNode V)
  | ssoFull (data : NodeData V) (consumed : ℕ)
  | ssoPrefix (data : NodeData V) (consumed : ℕ)
  | miss

/-- `trie_walk_ex` from a node. -/
def walk : TrieNode V → List Byte → WalkResult V
  | .null, _ => .miss
  | .node data children, [] => .exact (.node data children)
  | .node data children, c :: rest =>
    if data.sso ≠ [] then
      if (c :: rest).length ≤ data.sso.length ∧ data.sso.take (c :: rest).length = c :: rest then
        if (c :: rest).length = data.sso.length then .ssoFull data (c :: rest).length
        else .ssoPrefix data (c :: rest).length
      else .miss
    else walk (children c) rest

/-! ## Insertion -/

/-- How an insertion below a node ended. -/
inductive InsertOutcome
  | memoryError
  | replaced
  | added
  deriving DecidableEq, Repr

/-- The counter update for the nodes of the path array. -/
def bump (out : InsertOutcome) (data : NodeData V) : NodeData V :=
  if out = .added then { data with subtreeWords := data.subtreeWords + 1 } else data

/-- The descent of `trie_insert_method` from a node, with the rest of the word. -/
def insertAt (value : Option V) :
    Allocator → List Byte → TrieNode V → TrieNode V × InsertOutcome × Allocator
  | a, _, .null => (.null, .memoryError, a)
  | a, [], .node data children =>
    match ssoExpand a data children with
    | (node, false, a') => (node, .memoryError, a')
    | (.null, true, a') => (.null, .memoryError, a')
    | (.node data' children', true, a') =>
      if data'.isEnd then (.node { data' with value := value } children', .replaced, a')
      else
        (.node (bump .added { data' with isEnd := true, value := value }) children', .added, a')
  | a, c :: rest, .node data children =>
    match ssoExpand a data children with
    | (node, false, a') => (node, .memoryError, a')
    | (.null, true, a') => (.null, .memoryError, a')
    | (.node data' children', true, a') =>
      if (children' c).isNull then
        match a'.alloc with
        | (false, a'') => (.node data' children', .memoryError, a'')
        | (true, a'') =>
          let data'' := { data' with childCount := data'.childCount + 1 }
          if 0 < rest.length ∧ rest.length ≤ ssoMax then
            -- the rest of the word fits inline in the new node
            let created : TrieNode V :=
              .node { (NodeData.empty : NodeData V) with
                sso := rest, isEnd := true, value := value, subtreeWords := 1 } fun _ => .null
            (.node (bump .added data'') (Function.update children' c created), .added, a'')
          else
            let (child, out, a₃) := insertAt value a'' rest trieNodeCreate
            (.node (bump out data'') (Function.update children' c child), out, a₃)
      else
        let (child, out, a'') := insertAt value a' rest (children' c)
        (.node (bump out data') (Function.update children' c child), out, a'')

/-- `trie_insert_method`. -/
def insertMethod (a : Allocator) (t : TrieImpl V) (word : List Byte) (value : Option V) :
    TrieImpl V × ErrorCode :=
  let (ok, a') := if word.length + 2 ≤ pathStackSize then (true, a) else a.alloc
  if ok then
    match insertAt value a' word t.root with
    | (root, .memoryError, _) => (⟨root, t.wordCount⟩, .errorMemory)
    | (root, .replaced, _) => (⟨root, t.wordCount⟩, .success)
    | (root, .added, _) => (⟨root, t.wordCount + 1⟩, .success)
  else (t, .errorMemory)

/-! ## Queries -/

/-- `trie_search_method`. -/
def searchMethod (t : TrieImpl V) (word : List Byte) : Option V :=
  match walk t.root word with
  | .ssoFull data _ => if data.isEnd then data.value else none
  | .exact (.node data _) => if data.isEnd ∧ data.sso = [] then data.value else none
  | _ => none

/-- The `subtree_words` field of the node a walk ended at. -/
def WalkResult.subtreeWords : WalkResult V → ℕ
  | .exact (.node data _) => data.subtreeWords
  | .exact .null => 0
  | .ssoFull data _ => data.subtreeWords
  | .ssoPrefix data _ => data.subtreeWords
  | .miss => 0

/-- `trie_starts_with_method`. -/
def startsWithMethod (t : TrieImpl V) (pre : List Byte) : Bool :=
  match walk t.root pre with
  | .miss => false
  | r => 0 < r.subtreeWords

/-- `trie_count_words_method`: a `size_t`, cast to `int`. -/
def countWordsMethod (t : TrieImpl V) : ℤ := int32 t.wordCount

/-- `trie_count_prefixes_method`: a `size_t`, cast to `int`. -/
def countPrefixesMethod (t : TrieImpl V) (pre : List Byte) : ℤ :=
  match walk t.root pre with
  | .miss => 0
  | r => int32 r.subtreeWords

/-- `trie_collect_words`: the words below a node, with the bytes that lead to it. -/
def collectWords : TrieNode V → List Byte → List (List Byte)
  | .null, _ => []
  | .node data children, pre =>
    if data.sso ≠ [] then if data.isEnd then [pre ++ data.sso] else []
    else
      (if data.isEnd then [pre] else []) ++
        (List.finRange 256).flatMap fun i => collectWords (children i) (pre ++ [i])

/-- The words that `trie_get_words_with_prefix_method` offers to its list, in this order. -/
def WalkResult.wordsBelow (pre : List Byte) : WalkResult V → List (List Byte)
  | .miss => []
  | .exact node => collectWords node pre
  | .ssoFull data _ => if data.isEnd then [pre] else []
  | .ssoPrefix data consumed => if data.isEnd then [pre ++ data.sso.drop consumed] else []

/-- `trie_get_words_with_prefix_method`. The count is cast to `int` before it is compared with zero,
and the array list takes no more than `INT_MAX` items: what it returns is not looked at. -/
def getWordsWithPrefixMethod (t : TrieImpl V) (pre : List Byte) : List (List Byte) :=
  let r := walk t.root pre
  if int32 r.subtreeWords = 0 then [] else (r.wordsBelow pre).take intMax

/-! ## Deletion

On the way back a node that has lost its last word is freed by its parent. -/

/-- `trie_delete_recursive`: the node afterwards, `*removed`, and the return value, which tells
the parent to free the node. -/
def deleteRecursive : List Byte → Bool → TrieNode V → TrieNode V × Bool × Bool
  | _, _, .null => (.null, false, false)
  | [], isRoot, .node data children =>
    if data.sso ≠ [] then (.node data children, false, false)
    else if !data.isEnd then (.node data children, false, false)
    else
      (.node { data with
          isEnd := false, value := none, subtreeWords := data.subtreeWords - 1 } children,
        true, !isRoot && data.childCount = 0)
  | c :: rest, isRoot, .node data children =>
    if data.sso ≠ [] then
      if data.sso = c :: rest then
        if !data.isEnd then (.node data children, false, false)
        else
          (.node { data with
              isEnd := false, value := none, sso := [], subtreeWords := data.subtreeWords - 1 }
            children, true, !isRoot && data.childCount = 0)
      else (.node data children, false, false)
    else
      match deleteRecursive rest false (children c) with
      | (child, false, _) => (.node data (Function.update children c child), false, false)
      | (child, true, shouldFreeChild) =>
        let data' := { data with subtreeWords := data.subtreeWords - 1 }
        let data'' :=
          if shouldFreeChild then { data' with childCount := data'.childCount - 1 } else data'
        (.node data'' (Function.update children c (if shouldFreeChild then .null else child)), true,
          !isRoot && !data''.isEnd && data''.childCount = 0 && data''.sso = [])

/-- `trie_delete_method`. -/
def deleteMethod (t : TrieImpl V) (word : List Byte) : TrieImpl V × Bool :=
  match deleteRecursive word true t.root with
  | (root, true, _) => (⟨root, t.wordCount - 1⟩, true)
  | (root, false, _) => (⟨root, t.wordCount⟩, false)

end Trie

end OvaLib
