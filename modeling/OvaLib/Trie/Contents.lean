import Mathlib.Algebra.BigOperators.Fin
import Mathlib.Data.Fintype.BigOperators
import OvaLib.Trie.Model

/-!
# What a node stores

`lookup` reads a subtree as a partial map from words to values, and `size` counts its words. `Wf` is
the invariant the operations keep: the stored counters are the real ones, an inline tail belongs to
a childless word node, and no child is empty.

Every operation of the model gets one lemma here that describes it through `lookup` and `size`
alone; `Refinement` only composes them.

## Why no child is empty

A deletion frees a node when its last word is gone. Without that the counters would be right all the
same, but a prefix that no word has could be walked along. With it, a walk that ends below the root
says that there is a word, and a child can be counted by whether it is there.

## The shape of the proofs

`Wf` is defined by recursion on the node, with the local part `NodeOk` at each. An operation on a
node goes down one child and comes back, so each proof is an induction on the word, in which one
child is replaced by another and all that the node says of its children is adjusted. That step is
one lemma for insertion and one for deletion. Expanding an inline tail is a second recursion, on the
tail, and comes first: after it a node has none, and the cases of the descent are those of a plain
trie.

## Main results

* `ssoExpand_always` — expanding an inline tail changes neither the words nor their values
* `insertAt_always`, `deleteRecursive_spec` — insertion and deletion update one word
* `walk_spec` — where a walk stops, and what is stored below that point
* `mem_collectWords`, `pairwise_collectWords`, `length_collectWords` — the collected words
-/

namespace OvaLib

namespace Trie

open Finset

variable {V : Type*}

/-- The value bound to a word below a node; `none` when the word is absent. A word may be bound to
no value, which is why there are two options. At a node with an inline tail the tail is all there
is. -/
def lookup : TrieNode V → List Byte → Option (Option V)
  | .null, _ => none
  | .node data children, w =>
    if data.sso ≠ [] then if w = data.sso ∧ data.isEnd then some data.value else none
    else
      match w with
      | [] => if data.isEnd then some data.value else none
      | c :: rest => lookup (children c) rest

/-- The number of words below a node, by counting the marks. The counters that the nodes store do
not come in, so that they can be compared with it. -/
def size : TrieNode V → ℕ
  | .null => 0
  | .node data children =>
    (if data.isEnd then 1 else 0) + if data.sso ≠ [] then 0 else ∑ c, size (children c)

/-- The bytes under which a node has a child. -/
def occupied (children : Byte → TrieNode V) : Finset Byte :=
  univ.filter fun c => (children c).isNull = false

/-- The local part of the invariant of a node: its counters, and that an inline tail excludes
children. -/
structure NodeOk (data : NodeData V) (children : Byte → TrieNode V) : Prop where
  /-- The stored counter. -/
  subtreeWords : data.subtreeWords = size (.node data children)
  childCount : data.childCount = (occupied children).card
  /-- A tail belongs to a node that ends a word and has no children. -/
  sso : data.sso ≠ [] → data.isEnd = true ∧ ∀ c, children c = .null
  sso_length : data.sso.length ≤ ssoMax
  /-- Every child has a word. -/
  nonempty : ∀ c, (children c).isNull = false → 0 < size (children c)

/-- **The invariant of a subtree**: `NodeOk` at every node of it. -/
def Wf : TrieNode V → Prop
  | .null => True
  | .node data children => NodeOk data children ∧ ∀ c, Wf (children c)

theorem isNull_eq_true {n : TrieNode V} : n.isNull = true ↔ n = .null := by
  cases n <;> simp

theorem isNull_eq_false {n : TrieNode V} : n.isNull = false ↔ n ≠ .null := by
  cases n <;> simp

theorem lookup_nil {data : NodeData V} (children : Byte → TrieNode V) (h : data.sso = []) :
    lookup (.node data children) [] = if data.isEnd then some data.value else none := by
  simp [lookup, h]

theorem lookup_cons {data : NodeData V} (children : Byte → TrieNode V) (h : data.sso = [])
    (c : Byte) (rest : List Byte) :
    lookup (.node data children) (c :: rest) = lookup (children c) rest := by
  simp [lookup, h]

theorem lookup_of_sso {data : NodeData V} (children : Byte → TrieNode V) (h : data.sso ≠ [])
    (w : List Byte) : lookup (.node data children) w =
      if w = data.sso ∧ data.isEnd then some data.value else none := by
  cases w <;> simp [lookup, h]

theorem size_of_sso_nil {data : NodeData V} (children : Byte → TrieNode V) (h : data.sso = []) :
    size (.node data children) = (if data.isEnd then 1 else 0) + ∑ c, size (children c) := by
  simp [size, h]

/-- No word is stored below a node of size zero. -/
theorem lookup_eq_none_of_null {n : TrieNode V} (h : n.isNull = true) (w : List Byte) :
    lookup n w = none := by
  rw [isNull_eq_true.mp h, lookup]

/-! ## Replacing one child -/

theorem sum_size_update (children : Byte → TrieNode V) (c : Byte) (x : TrieNode V) :
    ∑ k, size (Function.update children c x k) + size (children c) =
      ∑ k, size (children k) + size x := by
  rw [← add_sum_erase univ _ (mem_univ c), ← add_sum_erase univ (fun k => size (children k))
    (mem_univ c), Function.update_self,
    sum_congr rfl fun k hk => by rw [Function.update_of_ne (ne_of_mem_erase hk)]]
  omega

theorem occupied_update (children : Byte → TrieNode V) (c : Byte) (x : TrieNode V) :
    occupied (Function.update children c x) =
      if x.isNull then (occupied children).erase c else insert c (occupied children) := by
  ext k
  by_cases hk : k = c
  · subst hk
    cases hx : x.isNull <;> simp [occupied, hx]
  · cases x.isNull <;> simp [occupied, hk]

/-- The number of children after one of them is replaced by a node. -/
theorem card_occupied_update {children : Byte → TrieNode V} {c : Byte} {x : TrieNode V}
    (hx : x.isNull = false) : (occupied (Function.update children c x)).card =
      (occupied children).card + if (children c).isNull then 1 else 0 := by
  rw [occupied_update, hx]
  cases hc : (children c).isNull with
  | true => simpa using card_insert_of_notMem (by simp [occupied, hc])
  | false => simpa using congrArg card (insert_eq_of_mem (by simp [occupied, hc]))

theorem lookup_update {data : NodeData V} (children : Byte → TrieNode V) (h : data.sso = [])
    (c : Byte) (x : TrieNode V) (k : Byte) (rest : List Byte) :
    lookup (.node data (Function.update children c x)) (k :: rest) =
      if k = c then lookup x rest else lookup (.node data children) (k :: rest) := by
  rw [lookup_cons _ h, lookup_cons _ h]
  by_cases hk : k = c
  · subst hk; simp
  · simp [hk]

/-- Every child of a well-formed node stays well formed when one is replaced. -/
theorem wf_update {children : Byte → TrieNode V} (h : ∀ c, Wf (children c)) (c : Byte)
    {x : TrieNode V} (hx : Wf x) (k : Byte) : Wf (Function.update children c x k) := by
  by_cases hk : k = c
  · subst hk; simpa using hx
  · simpa [hk] using h k

theorem nonempty_update {children : Byte → TrieNode V}
    (h : ∀ c, (children c).isNull = false → 0 < size (children c)) (c : Byte) {x : TrieNode V}
    (hx : x.isNull = false → 0 < size x) (k : Byte)
    (hk : (Function.update children c x k).isNull = false) :
    0 < size (Function.update children c x k) := by
  by_cases hkc : k = c
  · subst hkc
    rw [Function.update_self] at hk ⊢
    exact hx hk
  · rw [Function.update_of_ne hkc] at hk ⊢
    exact h k hk

/-! ## Expanding an inline tail -/

/-- A fresh chain holds exactly the word it spells. -/
theorem expandChain_always (value : Option V) (suffix : List Byte) (data : NodeData V)
    (children : Byte → TrieNode V) (hsso : data.sso = []) (hend : data.isEnd = false)
    (hchildren : ∀ c, children c = .null) (hcount : data.childCount = 0)
    (hwords : data.subtreeWords = 1) :
    ∃ data' children', expandChain true value .always suffix data children =
        (.node data' children', true, .always) ∧ data'.sso = [] ∧
      Wf (.node data' children') ∧ size (.node data' children') = 1 ∧
      ∀ w, lookup (.node data' children') w = if w = suffix then some value else none := by
  have hempty : ∑ c, size (children c) = 0 := sum_eq_zero fun c _ => by rw [hchildren c, size]
  have hocc : occupied children = ∅ := by
    ext c; simp [occupied, hchildren c]
  have hwf : ∀ c, Wf (children c) := fun c => by rw [hchildren c]; trivial
  induction suffix generalizing data children with
  | nil =>
    refine ⟨_, _, rfl, hsso, ⟨⟨?_, ?_, by simp [hsso], by simp [hsso], ?_⟩, hwf⟩, ?_, ?_⟩
    · simp [size, hsso, hempty, hwords]
    · simp [hcount, hocc]
    · intro c hc; rw [hchildren c] at hc; simp at hc
    · simp [size, hsso, hempty]
    · intro w
      cases w with
      | nil => simp [lookup, hsso]
      | cons c rest => simp [lookup, hsso, hchildren c]
  | cons c suffix ih =>
    obtain ⟨data₁, children₁, heq, -, hwf₁, hsize₁, hlook₁⟩ :=
      ih { NodeData.empty with subtreeWords := 1 } (fun _ => .null) rfl rfl
        (fun _ => rfl) rfl rfl (by simp [size]) (by simp [occupied])
        (fun _ => trivial)
    have hnull : (children c).isNull = true := by rw [hchildren c]; rfl
    refine ⟨{ data with childCount := data.childCount + 1 },
      Function.update children c (.node data₁ children₁), ?_, hsso, ⟨⟨?_, ?_, ?_, ?_, ?_⟩, ?_⟩,
      ?_, ?_⟩
    · simp only [expandChain, Allocator.alloc_always, heq]
    · have hsum := sum_size_update children c (.node data₁ children₁)
      rw [hempty, hsize₁, hchildren c, size] at hsum
      rw [size_of_sso_nil _ (by exact hsso)]
      simp only [hend, hwords]
      simpa using hsum.symm
    · rw [card_occupied_update rfl, hocc, if_pos hnull]; simp [hcount]
    · simp [hsso]
    · simp [hsso]
    · refine nonempty_update (fun k hk => ?_) c fun _ => by omega
      rw [hchildren k] at hk; simp at hk
    · exact wf_update hwf c hwf₁
    · have hsum := sum_size_update children c (.node data₁ children₁)
      rw [hempty, hsize₁, hchildren c, size] at hsum
      rw [size_of_sso_nil _ (by exact hsso)]
      simp only [hend]
      simpa using hsum
    · intro w
      cases w with
      | nil => simp [lookup, hsso, hend]
      | cons k rest =>
        rw [lookup_update children (by exact hsso), hlook₁, lookup_cons _ (by exact hsso),
          hchildren k]
        by_cases hk : k = c <;> simp [hk, lookup]

/-- **Expanding an inline tail** leaves a node without one, and the same words. -/
theorem ssoExpand_always {data : NodeData V} {children : Byte → TrieNode V}
    (h : Wf (.node data children)) :
    ∃ data' children', ssoExpand .always data children = (.node data' children', true, .always) ∧
      data'.sso = [] ∧ Wf (.node data' children') ∧
      size (.node data' children') = size (.node data children) ∧
      lookup (.node data' children') = lookup (.node data children) := by
  rw [ssoExpand]
  split
  · rename_i hsso
    exact ⟨data, children, rfl, hsso, h, rfl, rfl⟩
  · rename_i hsso
    obtain ⟨hend, hnull⟩ := h.1.sso hsso
    have hsize : size (.node data children) = 1 := by simp [size, hsso, hend]
    have hcount : data.childCount = 0 := by
      rw [h.1.childCount, card_eq_zero]; ext c; simp [occupied, hnull c]
    obtain ⟨data', children', heq, hsso', hwf, hone, hlook⟩ :=
      expandChain_always data.value data.sso
        { data with sso := [], isEnd := false, value := none } children rfl rfl hnull hcount
        (by rw [← hsize]; exact h.1.subtreeWords)
    refine ⟨data', children', by rw [hend]; exact heq, hsso', hwf, by rw [hone, hsize], ?_⟩
    funext w
    rw [hlook, lookup_of_sso _ hsso]
    simp [hend]

/-! ## Insertion -/

/-- A fresh node stores nothing. -/
theorem wf_trieNodeCreate : Wf (trieNodeCreate : TrieNode V) :=
  ⟨⟨by simp [size, NodeData.empty], by simp [occupied, NodeData.empty],
    by simp [NodeData.empty], by simp [NodeData.empty], by simp⟩, fun _ => trivial⟩

theorem lookup_trieNodeCreate (w : List Byte) : lookup (trieNodeCreate : TrieNode V) w = none := by
  cases w <;> simp [trieNodeCreate, NodeData.empty, lookup]

theorem size_trieNodeCreate : size (trieNodeCreate : TrieNode V) = 0 := by
  simp [trieNodeCreate, NodeData.empty, size]

/-- The node that holds one word inline. -/
def inlineNode (value : Option V) (rest : List Byte) : TrieNode V :=
  .node { (NodeData.empty : NodeData V) with
    sso := rest, isEnd := true, value := value, subtreeWords := 1 } fun _ => .null

theorem wf_inlineNode (value : Option V) {rest : List Byte} (h : 0 < rest.length)
    (hle : rest.length ≤ ssoMax) : Wf (inlineNode value rest) := by
  have hne : rest ≠ [] := List.ne_nil_of_length_pos h
  exact ⟨⟨by simp [size, hne], by simp [occupied, NodeData.empty],
    fun _ => ⟨rfl, fun _ => rfl⟩, hle, by simp⟩, fun _ => trivial⟩

theorem size_inlineNode (value : Option V) {rest : List Byte} (h : 0 < rest.length) :
    size (inlineNode value rest) = 1 := by
  simp [inlineNode, size, List.ne_nil_of_length_pos h]

theorem lookup_inlineNode (value : Option V) {rest : List Byte} (h : 0 < rest.length)
    (w : List Byte) : lookup (inlineNode value rest) w = if w = rest then some value else none := by
  have hne : rest ≠ [] := List.ne_nil_of_length_pos h
  rw [inlineNode, lookup_of_sso _ (by exact hne)]
  simp

/-- The outcome of inserting a word that may be there already. -/
def outcomeOf (present : Bool) : InsertOutcome := if present then .replaced else .added

/-- How many words an insertion adds. -/
def addedWords (out : InsertOutcome) : ℕ := if out = .added then 1 else 0

/-- **Replacing a child on the way back from an insertion.** The child went from `size (children c)`
to `size child` words, `addedWords out` of them new. -/
theorem wf_insert_child (out : InsertOutcome) {data : NodeData V} {children : Byte → TrieNode V}
    {c : Byte} {child : TrieNode V} (h : Wf (.node data children))
    (hsso : data.sso = []) (hchild : Wf child) (hnull : child.isNull = false)
    (hsize : size child = size (children c) + addedWords out) (hpos : 0 < size child) :
    let data' := { data with
      childCount := data.childCount + if (children c).isNull then 1 else 0 }
    Wf (.node (bump out data') (Function.update children c child)) ∧
      size (.node (bump out data') (Function.update children c child)) =
        size (.node data children) + addedWords out := by
  intro data'
  have hsum := sum_size_update children c child
  have hsso' : (bump out data').sso = [] := by rw [bump]; split <;> exact hsso
  have hend : (bump out data').isEnd = data.isEnd := by rw [bump]; split <;> rfl
  have hnew : size (.node (bump out data') (Function.update children c child)) =
      size (.node data children) + addedWords out := by
    rw [size_of_sso_nil _ hsso', size_of_sso_nil _ hsso, hend]
    omega
  refine ⟨⟨⟨?_, ?_, fun hne => absurd hsso' hne, by simp [hsso'], ?_⟩, wf_update h.2 c hchild⟩,
    hnew⟩
  · rw [hnew, ← h.1.subtreeWords]
    rw [bump, addedWords]
    split <;> rfl
  · have hcount : (bump out data').childCount = data'.childCount := by rw [bump]; split <;> rfl
    rw [hcount, card_occupied_update hnull, ← h.1.childCount]
  · exact nonempty_update h.1.nonempty c fun _ => hpos

/-- The word map after a child is replaced on the way back from an insertion. -/
theorem lookup_insert_child {data : NodeData V} (data' : NodeData V) {children : Byte → TrieNode V}
    {c : Byte} {child : TrieNode V} {rest : List Byte} {value : Option V} (hsso : data.sso = [])
    (hsso' : data'.sso = []) (hend : data'.isEnd = data.isEnd) (hval : data'.value = data.value)
    (hchild : ∀ w, lookup child w = if w = rest then some value else lookup (children c) w)
    (w : List Byte) :
    lookup (.node data' (Function.update children c child)) w =
      if w = c :: rest then some value else lookup (.node data children) w := by
  cases w with
  | nil => simp [lookup_nil, hsso, hsso', hend, hval]
  | cons k tail =>
    rw [lookup_update _ hsso', lookup_cons _ hsso', lookup_cons _ hsso]
    by_cases hk : k = c
    · subst hk; simp [hchild]
    · simp [hk]

@[simp] theorem bump_sso (out : InsertOutcome) (data : NodeData V) :
    (bump out data).sso = data.sso := by
  rw [bump]; split <;> rfl

@[simp] theorem bump_isEnd (out : InsertOutcome) (data : NodeData V) :
    (bump out data).isEnd = data.isEnd := by
  rw [bump]; split <;> rfl

@[simp] theorem bump_value (out : InsertOutcome) (data : NodeData V) :
    (bump out data).value = data.value := by
  rw [bump]; split <;> rfl

/-- The word that ends at a node gets another value. -/
theorem bind_present (value : Option V) {data : NodeData V} {children : Byte → TrieNode V}
    (h : Wf (.node data children)) (hsso : data.sso = []) (hend : data.isEnd = true) :
    Wf (.node { data with value := value } children) ∧
      size (.node { data with value := value } children) = size (.node data children) ∧
      ∀ w, lookup (.node { data with value := value } children) w =
        if w = [] then some value else lookup (.node data children) w := by
  have hsame : size (.node { data with value := value } children) =
      size (.node data children) := rfl
  refine ⟨⟨⟨h.1.subtreeWords.trans hsame.symm, h.1.childCount, h.1.sso, h.1.sso_length,
    h.1.nonempty⟩, h.2⟩, hsame, fun w => ?_⟩
  cases w with
  | nil => simp [lookup, hsso, hend]
  | cons c rest => simp [lookup, hsso]

/-- A word begins to end at a node. -/
theorem bind_absent (value : Option V) {data : NodeData V} {children : Byte → TrieNode V}
    (h : Wf (.node data children)) (hsso : data.sso = []) (hend : data.isEnd = false) :
    Wf (.node (bump .added { data with isEnd := true, value := value }) children) ∧
      size (.node (bump .added { data with isEnd := true, value := value }) children) =
        size (.node data children) + 1 ∧
      ∀ w, lookup (.node (bump .added { data with isEnd := true, value := value }) children) w =
        if w = [] then some value else lookup (.node data children) w := by
  have hplus : size (.node (bump .added { data with isEnd := true, value := value }) children) =
      size (.node data children) + 1 := by
    rw [size_of_sso_nil _ (by simpa using hsso), size_of_sso_nil _ hsso]
    simp [hend, add_comm]
  refine ⟨⟨⟨?_, h.1.childCount, by simp [bump, hsso], by simp [bump, hsso], h.1.nonempty⟩, h.2⟩,
    hplus, fun w => ?_⟩
  · rw [hplus, ← h.1.subtreeWords]
    simp [bump]
  · cases w with
    | nil => simp [lookup, hsso]
    | cons c rest => simp [lookup, hsso]

/-- **Insertion binds one word**, by induction on the word. -/
theorem insertAt_always (value : Option V) (word : List Byte) {node : TrieNode V} (h : Wf node)
    (hnull : node.isNull = false) :
    ∃ node', insertAt value .always word node =
        (node', outcomeOf (lookup node word).isSome, .always) ∧ node'.isNull = false ∧ Wf node' ∧
      size node' = size node + addedWords (outcomeOf (lookup node word).isSome) ∧
      ∀ w, lookup node' w = if w = word then some value else lookup node w := by
  induction word generalizing node with
  | nil =>
    cases node with
    | null => simp at hnull
    | node data₀ children₀ =>
      obtain ⟨data, children, hexp, hsso, hwf, hsize, hlook⟩ := ssoExpand_always h
      rw [← hlook, ← hsize]
      simp only [insertAt, hexp]
      cases hend : data.isEnd with
      | true =>
        have hpresent : lookup (.node data children) [] = some data.value := by
          rw [lookup_nil _ hsso, if_pos hend]
        obtain ⟨hwf', hsize', hlook'⟩ := bind_present value hwf hsso hend
        exact ⟨.node { data with value := value } children, by simp [hend, hpresent, outcomeOf],
          rfl, hwf', by simp [hsize', hpresent, outcomeOf, addedWords], hlook'⟩
      | false =>
        have habsent : lookup (.node data children) [] = none := by
          rw [lookup_nil _ hsso, hend]; simp
        obtain ⟨hwf', hsize', hlook'⟩ := bind_absent value hwf hsso hend
        exact ⟨.node (bump .added { data with isEnd := true, value := value }) children,
          by simp [habsent, outcomeOf], rfl, hwf',
          by simp [hsize', habsent, outcomeOf, addedWords], hlook'⟩
  | cons c rest ih =>
    cases node with
    | null => simp at hnull
    | node data₀ children₀ =>
      obtain ⟨data, children, hexp, hsso, hwf, hsize, hlook⟩ := ssoExpand_always h
      rw [← hlook, ← hsize, lookup_cons _ hsso]
      simp only [insertAt, hexp]
      cases hc : (children c).isNull with
      | true =>
        have habsent := lookup_eq_none_of_null hc rest
        have hzero : size (children c) = 0 := by rw [isNull_eq_true.mp hc, size]
        simp only [if_true, Allocator.alloc_always, habsent]
        split
        · rename_i hfits
          -- the rest of the word goes inline into a new child
          obtain ⟨hwf', hsize'⟩ := wf_insert_child .added (c := c) hwf hsso
            (wf_inlineNode value hfits.1 hfits.2) rfl
            (by rw [size_inlineNode value hfits.1, hzero]; rfl)
            (by rw [size_inlineNode value hfits.1]; exact Nat.one_pos)
          simp only [hc, if_true] at hwf' hsize'
          refine ⟨_, rfl, rfl, hwf', hsize', ?_⟩
          exact lookup_insert_child (bump _ _) hsso (by simpa using hsso) (by simp)
            (by simp) fun w => (lookup_inlineNode value hfits.1 w).trans (by
              rw [lookup_eq_none_of_null hc])
        · -- one plain node, and the descent goes on in it
          obtain ⟨child, heq, hnull', hwfc, hsizec, hlookc⟩ :=
            ih (wf_trieNodeCreate (V := V)) rfl
          rw [lookup_trieNodeCreate] at heq hsizec
          rw [size_trieNodeCreate] at hsizec
          obtain ⟨hwf', hsize'⟩ := wf_insert_child
            (outcomeOf (none : Option (Option V)).isSome) (c := c) hwf hsso hwfc hnull'
            (by rw [hsizec, hzero]) (by rw [hsizec]; simp [outcomeOf, addedWords])
          simp only [hc, if_true] at hwf' hsize'
          simp only [heq]
          refine ⟨_, rfl, rfl, hwf', hsize', ?_⟩
          exact lookup_insert_child (bump _ _) hsso (by simpa using hsso) (by simp)
            (by simp) fun w => by
              rw [hlookc, lookup_trieNodeCreate, lookup_eq_none_of_null hc]
      | false =>
        obtain ⟨child, heq, hnull', hwfc, hsizec, hlookc⟩ := ih (hwf.2 c) hc
        obtain ⟨hwf', hsize'⟩ := wf_insert_child _ hwf hsso hwfc hnull' hsizec
          (by have := hwf.1.nonempty c hc; omega)
        simp only [hc, Bool.false_eq_true, if_false, add_zero] at hwf' hsize'
        simp only [Bool.false_eq_true, if_false, heq]
        refine ⟨_, rfl, rfl, hwf', hsize', ?_⟩
        exact lookup_insert_child (bump _ _) hsso (by simpa using hsso) (by simp)
          (by simp) hlookc

/-! ## Deletion -/

/-- A subtree of size zero stores nothing. -/
theorem lookup_eq_none_of_size_eq_zero {n : TrieNode V} (h : Wf n) (hz : size n = 0)
    (w : List Byte) : lookup n w = none := by
  induction n generalizing w with
  | null => rw [lookup]
  | node data children ih =>
    have hend : data.isEnd = false := by
      by_contra hne
      simp only [Bool.not_eq_false] at hne
      simp [size, hne] at hz
    by_cases hsso : data.sso = []
    · have hz' : ∀ c, size (children c) = 0 := by
        rw [size_of_sso_nil _ hsso, hend] at hz
        simpa using hz
      cases w with
      | nil => simp [lookup_nil, hsso, hend]
      | cons c rest =>
        rw [lookup_cons _ hsso]
        exact ih c (h.2 c) (hz' c) _
    · rw [lookup_of_sso _ hsso]; simp [hend]

/-- A well-formed node is empty exactly when its own fields say so. -/
theorem size_eq_zero_iff {data : NodeData V} {children : Byte → TrieNode V}
    (h : Wf (.node data children)) (hsso : data.sso = []) :
    size (.node data children) = 0 ↔ data.isEnd = false ∧ data.childCount = 0 := by
  rw [size_of_sso_nil _ hsso, h.1.childCount, card_eq_zero, Nat.add_eq_zero_iff, sum_eq_zero_iff]
  refine and_congr (by cases data.isEnd <;> simp) ⟨fun hz => ?_, fun he c _ => ?_⟩
  · refine eq_empty_of_forall_notMem fun c hc => ?_
    exact absurd (hz c (mem_univ c))
      (Nat.ne_of_gt (h.1.nonempty c (by simpa [occupied] using hc)))
  · have hc : c ∉ occupied children := by rw [he]; exact notMem_empty c
    have hnull : (children c).isNull = true := by simpa [occupied] using hc
    rw [isNull_eq_true.mp hnull, size]

/-- What a call of `trie_delete_recursive` on `node` must return. -/
structure DeleteSpec (word : List Byte) (isRoot : Bool) (node : TrieNode V)
    (res : TrieNode V × Bool × Bool) : Prop where
  removed : res.2.1 = (lookup node word).isSome
  notNull : res.1.isNull = false
  wf : Wf res.1
  unchanged : res.2.1 = false → res.1 = node
  lookup_eq : ∀ w, lookup res.1 w = if w = word then none else lookup node w
  size_eq : size res.1 + (if res.2.1 then 1 else 0) = size node
  shouldFree : res.2.1 = true → res.2.2 = (!isRoot && decide (size res.1 = 0))

/-- A call that removes nothing leaves the node alone. -/
theorem DeleteSpec.of_absent {word : List Byte} {isRoot : Bool} {node : TrieNode V}
    (h : Wf node) (hnull : node.isNull = false) (habsent : lookup node word = none) (b : Bool) :
    DeleteSpec word isRoot node (node, false, b) where
  removed := by simp [habsent]
  notNull := hnull
  wf := h
  unchanged := fun _ => rfl
  lookup_eq := fun w => by
    by_cases hw : w = word
    · rw [if_pos hw, hw, habsent]
    · rw [if_neg hw]
  size_eq := rfl
  shouldFree := by simp

/-- A node that stops being a word keeps its children. -/
theorem DeleteSpec.of_unmark {word : List Byte} (isRoot : Bool) {data : NodeData V}
    {children : Byte → TrieNode V} (h : Wf (.node data children)) (hend : data.isEnd = true)
    (hword : word = data.sso) :
    DeleteSpec word isRoot (.node data children)
      (.node { data with
          isEnd := false, value := none, sso := [],
          subtreeWords := data.subtreeWords - 1 } children,
        true, !isRoot && data.childCount = 0) := by
  have hsum : size (.node data children) = 1 + ∑ c, size (children c) := by
    by_cases hsso : data.sso = []
    · rw [size_of_sso_nil _ hsso, if_pos hend]
    · have hzero : ∑ c, size (children c) = 0 :=
        sum_eq_zero fun c _ => by rw [(h.1.sso hsso).2 c, size]
      simp [size, hsso, hend, hzero]
  have hnew : size (.node { data with
      isEnd := false, value := none, sso := [], subtreeWords := data.subtreeWords - 1 } children) =
        ∑ c, size (children c) := by
    rw [size_of_sso_nil _ rfl]; simp
  have hwf : Wf (.node { data with
      isEnd := false, value := none, sso := [], subtreeWords := data.subtreeWords - 1 } children) :=
    ⟨⟨by rw [hnew, h.1.subtreeWords, hsum]; simp, h.1.childCount, by simp, by simp,
      h.1.nonempty⟩, h.2⟩
  refine ⟨?_, rfl, hwf, by simp, fun w => ?_, by rw [hnew, hsum]; simp [add_comm], fun _ => ?_⟩
  · by_cases hsso : data.sso = []
    · rw [hword, hsso, lookup_nil _ hsso, if_pos hend]; rfl
    · rw [hword, lookup_of_sso _ hsso]; simp [hend]
  · by_cases hsso : data.sso = []
    · rw [hword, hsso]
      cases w with
      | nil => simp [lookup]
      | cons c rest => simp [lookup, hsso]
    · rw [lookup_of_sso _ hsso, hword]
      cases w with
      | nil => simp [lookup, Ne.symm hsso]
      | cons c rest => simp [lookup, (h.1.sso hsso).2 c, hend]
  · have := size_eq_zero_iff hwf rfl
    simp only [true_and] at this
    rw [decide_eq_decide.mpr this]

/-- **Replacing a child on the way back from a deletion.** The child lost a word, and is dropped
exactly when that was its last one. -/
theorem DeleteSpec.of_child {rest : List Byte} (isRoot : Bool) {free : Bool} {data : NodeData V}
    {children : Byte → TrieNode V} {c : Byte} {child : TrieNode V} (h : Wf (.node data children))
    (hsso : data.sso = []) (hc : (children c).isNull = false)
    (hspec : DeleteSpec rest false (children c) (child, true, free)) :
    let data' := { data with
      subtreeWords := data.subtreeWords - 1
      childCount := if free then data.childCount - 1 else data.childCount }
    DeleteSpec (c :: rest) isRoot (.node data children)
      (.node data' (Function.update children c (if free then .null else child)), true,
        !isRoot && !data'.isEnd && data'.childCount = 0 && data'.sso = []) := by
  intro data'
  obtain ⟨hrem, hnn, hwf, -, hlook, hsize, hfree⟩ := hspec
  simp only [if_true, true_implies] at hrem hnn hwf hlook hsize hfree
  have hfree' : free = decide (size child = 0) := by simpa using hfree
  obtain ⟨kept, hkept⟩ : ∃ kept : TrieNode V, kept = if free then .null else child := ⟨_, rfl⟩
  have hsizeKept : size kept + 1 = size (children c) := by
    rw [hkept, hfree']
    by_cases hz : size child = 0
    · simp only [hz, decide_true, if_true, size]; simpa [hz] using hsize
    · simpa [hz] using hsize
  have hwfKept : Wf kept := by rw [hkept]; split; exacts [trivial, hwf]
  have hposKept : kept.isNull = false → 0 < size kept := by
    rw [hkept, hfree']
    by_cases hz : size child = 0
    · simp [hz]
    · simpa [hz] using fun _ => Nat.pos_of_ne_zero hz
  have hlookKept : ∀ w, lookup kept w = if w = rest then none else lookup (children c) w := by
    intro w
    rw [← hlook, hkept, hfree']
    by_cases hz : size child = 0
    · have hnone : lookup child w = none := lookup_eq_none_of_size_eq_zero hwf hz w
      simp [hz, hnone, lookup]
    · simp [hz]
  have hcount : (occupied (Function.update children c kept)).card = data'.childCount := by
    have hmem : c ∈ occupied children := by simpa [occupied] using hc
    have hdata : data'.childCount =
        if free then (occupied children).card - 1 else (occupied children).card := by
      rw [← h.1.childCount]
    rw [occupied_update, hkept, hdata]
    cases free with
    | true => simpa using card_erase_of_mem hmem
    | false => simpa [hnn] using congrArg card (insert_eq_of_mem hmem)
  have hsum := sum_size_update children c kept
  have hold := size_of_sso_nil children hsso
  have hnew : size (.node data' (Function.update children c kept)) + 1 =
      size (.node data children) := by
    have hend : data'.isEnd = data.isEnd := rfl
    rw [size_of_sso_nil _ (by exact hsso), hold, hend]
    omega
  have hwf' : Wf (.node data' (Function.update children c kept)) := by
    refine ⟨⟨?_, hcount.symm, fun hne => absurd hsso hne, h.1.sso_length,
      nonempty_update h.1.nonempty c hposKept⟩, wf_update h.2 c hwfKept⟩
    have hwords := h.1.subtreeWords
    change data.subtreeWords - 1 = _
    omega
  rw [← hkept]
  refine ⟨?_, rfl, hwf', by simp, fun w => ?_, by simpa using hnew, fun _ => ?_⟩
  · rw [lookup_cons _ hsso]; exact hrem
  · cases w with
    | nil => simp [lookup_nil, hsso, data']
    | cons k tail =>
      rw [lookup_update _ (by exact hsso), lookup_cons _ (by exact hsso), lookup_cons _ hsso]
      by_cases hk : k = c
      · subst hk; simp [hlookKept]
      · simp [hk]
  · have hzero := size_eq_zero_iff hwf' (by exact hsso)
    have hdata : decide (data'.sso = []) = true := decide_eq_true hsso
    simp only [hzero, hdata, Bool.decide_and, Bool.and_true, Bool.and_assoc]
    cases data'.isEnd <;> rfl

/-- **Deletion removes one word**, by induction on the word. -/
theorem deleteRecursive_spec (word : List Byte) (isRoot : Bool) {node : TrieNode V} (h : Wf node)
    (hnull : node.isNull = false) :
    DeleteSpec word isRoot node (deleteRecursive word isRoot node) := by
  induction word generalizing node isRoot with
  | nil =>
    cases node with
    | null => simp at hnull
    | node data children =>
      by_cases hsso : data.sso = []
      · cases hend : data.isEnd with
        | false =>
          have habsent : lookup (.node data children) [] = none := by
            rw [lookup_nil _ hsso, hend]; simp
          simpa [deleteRecursive, hsso, hend] using DeleteSpec.of_absent h rfl habsent false
        | true =>
          have hspec := DeleteSpec.of_unmark isRoot h hend hsso.symm
          simpa [deleteRecursive, hsso, hend] using hspec
      · have habsent : lookup (.node data children) [] = none := by
          rw [lookup_of_sso _ hsso, if_neg fun hw => hsso hw.1.symm]
        simpa [deleteRecursive, hsso] using DeleteSpec.of_absent h rfl habsent false
  | cons c rest ih =>
    cases node with
    | null => simp at hnull
    | node data children =>
      by_cases hsso : data.sso = []
      · cases hc : (children c).isNull with
        | true =>
          have habsent : lookup (.node data children) (c :: rest) = none := by
            rw [lookup_cons _ hsso, lookup_eq_none_of_null hc]
          have hrec : deleteRecursive rest false (children c) = (.null, false, false) := by
            rw [isNull_eq_true.mp hc]; cases rest <;> rfl
          have hsame : Function.update children c .null = children := by
            rw [← isNull_eq_true.mp hc]; exact Function.update_eq_self c children
          simpa [deleteRecursive, hsso, hrec, hsame] using
            DeleteSpec.of_absent h rfl habsent false
        | false =>
          obtain ⟨hrem, hnn, hwf, hunch, hlook, hsize, hfree⟩ := ih false (h.2 c) hc
          rw [← lookup_cons children hsso] at hrem
          rcases hres : deleteRecursive rest false (children c) with ⟨child, removed, free⟩
          rw [hres] at hrem hnn hwf hunch hlook hsize hfree
          simp only at hrem hnn hwf hunch hlook hsize hfree
          cases removed with
          | false =>
            have habsent : lookup (.node data children) (c :: rest) = none := by
              simpa using hrem.symm
            have hsame : Function.update children c child = children := by
              rw [hunch rfl]; exact Function.update_eq_self c children
            simpa [deleteRecursive, hsso, hres, hsame] using
              DeleteSpec.of_absent h rfl habsent false
          | true =>
            have hnew := DeleteSpec.of_child isRoot h hsso hc
              (hres ▸ ih false (h.2 c) hc)
            cases free <;> simpa [deleteRecursive, hsso, hres] using hnew
      · by_cases hw : data.sso = c :: rest
        · have hend := (h.1.sso hsso).1
          have hspec := DeleteSpec.of_unmark isRoot h hend hw.symm
          simpa [deleteRecursive, hsso, hw, hend] using hspec
        · have habsent : lookup (.node data children) (c :: rest) = none := by
            rw [lookup_of_sso _ hsso, if_neg fun h' => hw h'.1.symm]
          simpa [deleteRecursive, hsso, hw] using DeleteSpec.of_absent h rfl habsent false

/-! ## Walking

A walk stops where the word leaves the trie, where it ends, or inside of an inline tail. -/

/-- What is stored below the point where a walk along `pre` from `node` stops. -/
inductive WalkSpec (node : TrieNode V) (pre : List Byte) : WalkResult V → Prop
  | exact (data : NodeData V) (children : Byte → TrieNode V) (wf : Wf (.node data children))
      (lookup_eq : ∀ u, lookup node (pre ++ u) = lookup (.node data children) u) :
      WalkSpec node pre (.exact (.node data children))
  | ssoFull (data : NodeData V) (consumed : ℕ) (isEnd : data.isEnd = true)
      (subtreeWords : data.subtreeWords = 1)
      (lookup_eq : ∀ u, lookup node (pre ++ u) = if u = [] then some data.value else none) :
      WalkSpec node pre (.ssoFull data consumed)
  | ssoPrefix (data : NodeData V) (consumed : ℕ) (isEnd : data.isEnd = true)
      (subtreeWords : data.subtreeWords = 1) (rest_ne : data.sso.drop consumed ≠ [])
      (lookup_eq : ∀ u, lookup node (pre ++ u) =
        if u = data.sso.drop consumed then some data.value else none) :
      WalkSpec node pre (.ssoPrefix data consumed)
  | miss (lookup_eq : ∀ u, lookup node (pre ++ u) = none) : WalkSpec node pre .miss

/-- A walk below a child is a walk below its parent. -/
theorem WalkSpec.of_child {data : NodeData V} {children : Byte → TrieNode V} {c : Byte}
    {pre : List Byte} {r : WalkResult V} (hsso : data.sso = [])
    (h : WalkSpec (children c) pre r) : WalkSpec (.node data children) (c :: pre) r := by
  have hlook : ∀ u, lookup (.node data children) (c :: pre ++ u) = lookup (children c) (pre ++ u) :=
    fun u => lookup_cons children hsso c (pre ++ u)
  cases h with
  | exact data' children' wf hu => exact .exact _ _ wf fun u => (hlook u).trans (hu u)
  | ssoFull data' k hend hone hu => exact .ssoFull _ _ hend hone fun u => (hlook u).trans (hu u)
  | ssoPrefix data' k hend hone hne hu =>
    exact .ssoPrefix _ _ hend hone hne fun u => (hlook u).trans (hu u)
  | miss hu => exact .miss fun u => (hlook u).trans (hu u)

/-- **Where a walk stops**, by induction on the bytes walked along. -/
theorem walk_spec {node : TrieNode V} (h : Wf node) (pre : List Byte) :
    WalkSpec node pre (walk node pre) := by
  induction pre generalizing node with
  | nil =>
    cases node with
    | null => exact .miss fun u => lookup_eq_none_of_null rfl u
    | node data children => exact .exact data children h fun u => rfl
  | cons c rest ih =>
    cases node with
    | null => exact .miss fun u => lookup_eq_none_of_null rfl _
    | node data children =>
      by_cases hsso : data.sso = []
      · simpa [walk, hsso] using (ih (h.2 c)).of_child hsso
      · have hend := (h.1.sso hsso).1
        have hone : data.subtreeWords = 1 := by rw [h.1.subtreeWords]; simp [size, hsso, hend]
        have hlook := lookup_of_sso children hsso
        simp only [hend, and_true] at hlook
        simp only [walk, ne_eq, hsso, not_false_eq_true, if_true]
        split
        · rename_i hfit
          -- the bytes walked along are a prefix of the inline tail
          have hsplit : c :: rest ++ data.sso.drop (c :: rest).length = data.sso := by
            conv_rhs => rw [← List.take_append_drop (c :: rest).length data.sso, hfit.2]
          have hiff : ∀ u, c :: rest ++ u = data.sso ↔ u = data.sso.drop (c :: rest).length :=
            fun u => by conv_lhs => rw [← hsplit, List.append_cancel_left_eq]
          split
          · rename_i hlen
            refine .ssoFull _ _ hend hone fun u => ?_
            rw [hlook]
            simp only [hiff, hlen, List.drop_length]
          · rename_i hlen
            refine .ssoPrefix _ _ hend hone (fun hd => hlen ?_) fun u => ?_
            · exact le_antisymm hfit.1 (List.drop_eq_nil_iff.mp hd)
            · rw [hlook]
              simp only [hiff]
        · rename_i hfit
          refine .miss fun u => ?_
          rw [hlook, if_neg]
          intro hu
          refine hfit ⟨?_, ?_⟩ <;> rw [← hu]
          · simp
          · exact List.take_left

/-! ## Collecting

The bytes of a word come out in the order of the children, so the words are in ascending order. -/

theorem lt_append_cons (pre : List Byte) (c : Byte) (u : List Byte) : pre < pre ++ c :: u := by
  induction pre with
  | nil => exact List.nil_lt_cons c u
  | cons k pre ih => exact List.cons_lt_cons_self.mpr ih

theorem append_cons_lt (pre : List Byte) {c k : Byte} (h : c < k) (u v : List Byte) :
    pre ++ c :: u < pre ++ k :: v := by
  induction pre with
  | nil => exact List.cons_lt_cons_iff.mpr (.inl h)
  | cons j pre ih => exact List.cons_lt_cons_self.mpr ih

/-- The collected words are the stored ones, each behind the bytes that lead to the node. -/
theorem mem_collectWords {node : TrieNode V} {pre w : List Byte} :
    w ∈ collectWords node pre ↔ ∃ u, w = pre ++ u ∧ (lookup node u).isSome := by
  induction node generalizing pre with
  | null => simp [collectWords, lookup]
  | node data children ih =>
    by_cases hsso : data.sso = []
    · simp only [collectWords, hsso, ne_eq, not_true_eq_false, if_false, List.mem_append,
        List.mem_flatMap, List.mem_finRange, true_and, ih]
      constructor
      · rintro (hw | ⟨c, u, rfl, hu⟩)
        · cases hend : data.isEnd with
          | false => simp [hend] at hw
          | true => exact ⟨[], by simpa [hend] using hw, by simp [lookup_nil, hsso, hend]⟩
        · exact ⟨c :: u, by simp, by rwa [lookup_cons _ hsso]⟩
      · rintro ⟨u, rfl, hu⟩
        cases u with
        | nil =>
          cases hend : data.isEnd with
          | false => simp [lookup_nil, hsso, hend] at hu
          | true => exact .inl (by simp)
        | cons c rest => exact .inr ⟨c, rest, by simp, by rwa [lookup_cons _ hsso] at hu⟩
    · simp only [collectWords, ne_eq, hsso, not_false_eq_true, if_true,
        lookup_of_sso _ hsso]
      cases hend : data.isEnd with
      | false => simp
      | true => simp

/-- **The words come out in ascending order**, so none is listed twice. -/
theorem pairwise_collectWords (node : TrieNode V) (pre : List Byte) :
    (collectWords node pre).Pairwise (· < ·) := by
  induction node generalizing pre with
  | null => exact List.Pairwise.nil
  | node data children ih =>
    have hbelow : ∀ c w, w ∈ collectWords (children c) (pre ++ [c]) → ∃ u, w = pre ++ c :: u := by
      intro c w hw
      obtain ⟨u, rfl, -⟩ := mem_collectWords.mp hw
      exact ⟨u, by simp⟩
    by_cases hsso : data.sso = []
    · simp only [collectWords, hsso, ne_eq, not_true_eq_false, if_false]
      refine List.pairwise_append.mpr ⟨by split <;> simp, ?_, ?_⟩
      · refine List.pairwise_flatMap.mpr ⟨fun c _ => ih c _, ?_⟩
        refine List.Pairwise.imp ?_ (List.pairwise_lt_finRange 256)
        intro c k hck v hv w hw
        obtain ⟨u, rfl⟩ := hbelow c v hv
        obtain ⟨u', rfl⟩ := hbelow k w hw
        exact append_cons_lt pre hck u u'
      · intro v hv w hw
        obtain ⟨c, -, hw⟩ := List.mem_flatMap.mp hw
        obtain ⟨u, rfl⟩ := hbelow c w hw
        have hv' : v = pre := by
          cases hend : data.isEnd with
          | false => simp [hend] at hv
          | true => simpa [hend] using hv
        rw [hv']
        exact lt_append_cons pre c u
    · simp only [collectWords, ne_eq, hsso, not_false_eq_true, if_true]
      split <;> simp

theorem nodup_collectWords (node : TrieNode V) (pre : List Byte) :
    (collectWords node pre).Nodup :=
  (pairwise_collectWords node pre).imp fun h => ne_of_lt h

/-- As many words are collected as the node counts. -/
theorem length_collectWords {node : TrieNode V} (h : Wf node) (pre : List Byte) :
    (collectWords node pre).length = size node := by
  induction node generalizing pre with
  | null => rfl
  | node data children ih =>
    by_cases hsso : data.sso = []
    · have hchild : ∀ c, (collectWords (children c) (pre ++ [c])).length = size (children c) :=
        fun c => ih c (h.2 c) _
      simp only [collectWords, hsso, ne_eq, not_true_eq_false, if_false, List.length_append,
        List.length_flatMap, hchild, size_of_sso_nil _ hsso]
      have hsum : ((List.finRange 256).map fun c => size (children c)).sum =
          ∑ c, size (children c) := (Fin.sum_univ_def _).symm
      rw [hsum]
      split <;> rfl
    · simp [collectWords, size, hsso, (h.1.sso hsso).1]

end Trie

end OvaLib
