import OvaLib.Foundation.FiniteSet
import OvaLib.SkipList.SkipListInvariant

/-!
# The skip list is a finite map

A run of calls on a skip list and on the finite map from classes of equivalent keys to values. The
outcomes of the node allocations belong to both: an insertion of an absent key asks for a node, and
binds nothing when there is none. The seed belongs to the skip list alone.

## What the result says about chance

The source draws levels at random, and the time of a walk depends on them. Its answers do not: the
theorem is for every seed and every number of levels, and the finite map it names is the same for
all. The levels of the final state are part of the conclusion. `Levels` says that level 0 passes all
nodes in the order of their keys and that each level passes those that are on it, which is what
makes the list a skip list and not merely a map.

## Fuel

A walk passes each node at most once on a level, and there are no more nodes than calls. Given more
fuel than calls, every walk of the run ends, and that the run answers is part of the conclusion.

## Sizes

The size is an `int` that no operation looks at. Past `INT_MAX` keys every operation but `size`
still works, and the last section has the run that shows it.

## Main results

* `Represents.find` — what the walk of every operation finds
* `step_refines` — one call
* `skipList_refines_map` — every run, whatever the seed and the failing allocations
* `skipList_size_beyond_intMax` — one more key than an `int` can count
-/

namespace OvaLib

open Foundation (IsComparator Follows Lists support)

namespace SkipList

variable {κ υ : Type*} {cmp : κ → κ → ℤ}

/-- A call with a non-`NULL` key. -/
inductive Call (κ υ : Type*)
  | insert (key : κ) (value : Option υ)
  | search (key : κ)
  | delete (key : κ)

/-- What a call returns. -/
inductive Result (υ : Type*)
  | code (e : ErrorCode)
  | value (v : Option υ)

/-! ## The finite map -/

/-- The finite map a skip list stands for. The inner `Option` is the `void *` value. -/
abbrev KeyMap (h : IsComparator cmp) (υ : Type*) := h.KeyClass → Option (Option υ)

open Classical in
/-- A call of the finite map; binding a new key takes a node. -/
noncomputable def mapStep (h : IsComparator cmp) (M : KeyMap h υ) (nodes : Allocator) :
    Call κ υ → Result υ × KeyMap h υ × Allocator
  | .insert key value =>
    if (M (h.keyClass key)).isSome then
      (.code .success, Function.update M (h.keyClass key) (some value), nodes)
    else if nodes.alloc.1 then
      (.code .success, Function.update M (h.keyClass key) (some value), nodes.alloc.2)
    else (.code .errorMemory, M, nodes.alloc.2)
  | .search key => (.value (M (h.keyClass key)).join, M, nodes)
  | .delete key =>
    if (M (h.keyClass key)).isSome then
      (.code .success, Function.update M (h.keyClass key) none, nodes)
    else (.code .errorNotFound, M, nodes)

/-- A run, with what the calls return. -/
noncomputable def mapRun (h : IsComparator cmp) (M : KeyMap h υ) (nodes : Allocator) :
    List (Call κ υ) → List (Result υ) × KeyMap h υ × Allocator
  | [] => ([], M, nodes)
  | c :: calls =>
    let (r, M, nodes) := mapStep h M nodes c
    let (rs, M, nodes) := mapRun h M nodes calls
    (r :: rs, M, nodes)

/-! ## The model -/

/-- A call of the skip list. Node allocations may fail; the arrays of more than 32 entries are
there. -/
def step (cmp : κ → κ → ℤ) (fuel : ℕ) (l : SkipList κ υ) (nodes : Allocator) :
    Call κ υ → Option (Result υ × SkipList κ υ × Allocator)
  | .insert key value =>
    (slInsert cmp fuel l (some key) value nodes .always).map fun r => (.code r.1, r.2.1, r.2.2.1)
  | .search key => (slSearch cmp fuel l (some key)).map fun v => (.value v, l, nodes)
  | .delete key =>
    (slDelete cmp fuel l (some key) .always).map fun r => (.code r.1, r.2.1, nodes)

/-- A run, with what the calls return. -/
def run (cmp : κ → κ → ℤ) (fuel : ℕ) (l : SkipList κ υ) (nodes : Allocator) :
    List (Call κ υ) → Option (List (Result υ) × SkipList κ υ × Allocator)
  | [] => some ([], l, nodes)
  | c :: calls => do
    let (r, l, nodes) ← step cmp fuel l nodes c
    let (rs, l, nodes) ← run cmp fuel l nodes calls
    return (r :: rs, l, nodes)

variable {h : IsComparator cmp} {l : SkipList κ υ} {ns : List ℕ} {M : KeyMap h υ}

/-- The nodes `ns` are on their levels, and hold the bindings of `M`. -/
structure Represents (h : IsComparator cmp) (l : SkipList κ υ) (ns : List ℕ) (M : KeyMap h υ) :
    Prop where
  inv : Inv cmp l ns
  /-- The bindings of the nodes are those of the finite map. -/
  lists : Lists (fun a => h.keyClass (l.key a)) l.value ns M

/-! ## The walk

Insertion, search and deletion compare one node with their key. It holds the key if the finite map
binds it, and otherwise the key is not there. -/

/-- What the walk of an operation finds: the node of the key, or that there is none. -/
inductive Found (h : IsComparator cmp) (l : SkipList κ υ) (M : KeyMap h υ) (key : κ)
    (lo up : List ℕ) (cur : ℕ) : Prop
  | present (c : ℕ) (rest : List ℕ) (eq : up = c :: rest)
      (class_eq : h.keyClass key = h.keyClass (l.key c))
      (bound : M (h.keyClass key) = some (l.value c))
      (matching : l.matching cmp key (l.forward 0 cur) = some c)
  | absent (ne : ∀ a ∈ up, cmp (l.key a) key ≠ 0) (unbound : M (h.keyClass key) = none)
      (matching : l.matching cmp key (l.forward 0 cur) = none)

/-- **The walk of every operation.** -/
theorem Represents.find (hl : Represents h l ns M) (key : κ) {fuel : ℕ}
    (hfuel : ns.length < fuel) :
    ∃ lo up cur update, Splits cmp l key ns lo up ∧
      descend cmp l key fuel (l.level + 1) header (fun _ => none) = some (cur, update) ∧
      (∀ i ≤ l.level, update i = some (l.lastOn lo i)) ∧ Found h l M key lo up cur := by
  obtain ⟨lo, up, hsplit⟩ := exists_splits h hl.inv.ascending key
  have hdescend : descend cmp l key fuel (l.level + 1) header (fun _ => none) = _ :=
    descend_spec hl.inv hsplit hfuel (Nat.succ_le_succ hl.inv.level_le) List.mem_cons_self
  rw [if_neg (Nat.succ_ne_zero _)] at hdescend
  refine ⟨lo, up, _, _, hsplit, hdescend, fun i hi => if_pos (Nat.lt_succ_of_le hi), ?_⟩
  obtain ⟨rfl, hlt, hge⟩ := hsplit
  have hnext : l.forward 0 (l.lastOn lo 0) = up.head? := by
    rw [hl.inv.forward_lastOn (Nat.zero_le _), onLevel_zero]
  have hcmp : ∀ a, h.keyClass (l.key a) = h.keyClass key → cmp (l.key a) key = 0 := fun a =>
    h.keyClass_eq_iff.mp
  cases up with
  | nil =>
    refine .absent (by simp) (hl.lists.eq_none_iff.mpr fun a ha heq => ?_) ?_
    · have hneg := hlt a (by simpa using ha)
      have hzero := hcmp a heq
      omega
    · rw [hnext]
      rfl
  | cons c rest =>
    by_cases hc : cmp (l.key c) key = 0
    · have hclass : h.keyClass key = h.keyClass (l.key c) := (h.keyClass_eq_iff.mpr hc).symm
      refine .present c rest rfl hclass ?_ ?_
      · rw [hclass]
        exact hl.lists.of_mem (List.mem_append_right _ List.mem_cons_self)
      · rw [hnext]
        exact Option.filter_some_pos (decide_eq_true hc)
    · have hne : ∀ a ∈ c :: rest, cmp (l.key a) key ≠ 0 := by
        refine List.forall_mem_cons.mpr ⟨hc, fun a ha => ?_⟩
        have hasc := (List.pairwise_append.mp hl.inv.ascending).2.1
        have hca := (List.pairwise_cons.mp hasc).1 a ha
        have hcpos := hge c List.mem_cons_self
        have hkc := h.neg_iff key (l.key c)
        have hka := h.lt_trans (hkc.mpr (by omega)) hca
        have hak := h.neg_iff key (l.key a)
        omega
      refine .absent hne (hl.lists.eq_none_iff.mpr fun a ha heq => ?_) ?_
      · have hzero := hcmp a heq
        rcases List.mem_append.mp ha with ha | ha
        · have hneg := hlt a ha
          omega
        · exact hne a ha hzero
      · rw [hnext]
        exact Option.filter_some_neg (by simpa using hc)

/-! ## One call -/

@[simp] theorem updateArray_always (l : SkipList κ υ) :
    l.updateArray .always = (true, Allocator.always) := by
  rw [updateArray]
  split <;> rfl

/-- The value of a node on the list is assigned. -/
theorem Represents.assign (hl : Represents h l ns M) {c : ℕ} (hc : c ∈ ns) {key : κ}
    (hclass : h.keyClass key = h.keyClass (l.key c)) (value : Option υ)
    [DecidableEq h.KeyClass] :
    Represents h { l with value := Function.update l.value c value } ns
      (Function.update M (h.keyClass key) (some value)) where
  inv := { hl.inv with }
  lists := by
    rw [hclass]
    exact hl.lists.assign hc value

/-- The payloads of a new node are bound. -/
theorem Represents.insertNew (hl : Represents h l ns M) {l' : SkipList κ υ} {lo up : List ℕ}
    {key : κ} {value : Option υ} (hinv : Inv cmp l' (lo ++ l.fresh :: up))
    (hextends : Extends l l' l.fresh key value) (heq : ns = lo ++ up)
    (hunbound : M (h.keyClass key) = none) [DecidableEq h.KeyClass] :
    Represents h l' (lo ++ l.fresh :: up)
      (Function.update M (h.keyClass key) (some value)) := by
  have hne : ∀ a ∈ ns, a ≠ l.fresh := fun a ha =>
    Nat.ne_of_lt (hl.inv.lt_fresh a (List.mem_cons_of_mem _ ha))
  have hkeyx : l'.key l.fresh = key := by
    rw [hextends.key_eq, Function.update_self]
  have hvaluex : l'.value l.fresh = value := by
    rw [hextends.value_eq, Function.update_self]
  have hkey : ∀ a ∈ ns, l'.key a = l.key a := fun a ha => by
    rw [hextends.key_eq, Function.update_of_ne (hne a ha)]
  have hval : ∀ a ∈ ns, l'.value a = l.value a := fun a ha => by
    rw [hextends.value_eq, Function.update_of_ne (hne a ha)]
  have hlists := hl.lists.insertNew (fun a => h.keyClass (l'.key a))
    (fun a ha => by rw [hkey a ha]) hval (e := l.fresh) (by rw [hkeyx]; exact hunbound)
    (heq ▸ List.perm_middle)
  rw [hkeyx, hvaluex] at hlists
  exact ⟨hinv, hlists⟩

/-- **An insertion** is one of the finite map, with or without a node. -/
theorem step_insert (hl : Represents h l ns M) (key : κ) (value : Option υ) (nodes : Allocator)
    {fuel : ℕ} (hfuel : ns.length < fuel) :
    ∃ l' ns', step cmp fuel l nodes (.insert key value) =
        some ((mapStep h M nodes (.insert key value)).1, l',
          (mapStep h M nodes (.insert key value)).2.2) ∧
      Represents h l' ns' (mapStep h M nodes (.insert key value)).2.1 ∧
      l'.maxLevel = l.maxLevel ∧ ns'.length ≤ ns.length + 1 := by
  classical
  obtain ⟨lo, up, cur, update, hsplit, hdescend, hupdate, hfound⟩ := hl.find key hfuel
  have hstep : ∀ e l' nodes', l.insertAt cmp key value cur update nodes = some (e, l', nodes') →
      step cmp fuel l nodes (.insert key value) = some (.code e, l', nodes') := by
    intro e l' nodes' hinsert
    rw [step, slInsert, updateArray_always]
    dsimp only
    rw [if_pos rfl, hdescend, Option.bind_some, hinsert]
    rfl
  cases hfound with
  | present c rest eq class_eq bound matching =>
    have hmap : mapStep h M nodes (.insert key value) =
        (.code .success, Function.update M (h.keyClass key) (some value), nodes) := by
      rw [mapStep, if_pos (by rw [bound]; rfl)]
    have hc : c ∈ ns := by
      rw [hsplit.eq, eq]
      exact List.mem_append_right _ List.mem_cons_self
    rw [hmap]
    refine ⟨_, ns, hstep _ _ _ ?_, hl.assign hc class_eq value, rfl, Nat.le_succ _⟩
    rw [insertAt, matching]
  | absent ne unbound matching =>
    obtain ⟨hsuccess, hfailure⟩ := hl.inv.insertNew h hsplit ne hupdate value nodes
    have hunbound : ¬ (M (h.keyClass key)).isSome = true := by
      rw [unbound]
      exact Bool.false_ne_true
    cases halloc : nodes.alloc.1 with
    | true =>
      obtain ⟨l', hinsert, hinv, hextends, hmax⟩ := hsuccess halloc
      have hmap : mapStep h M nodes (.insert key value) =
          (.code .success, Function.update M (h.keyClass key) (some value), nodes.alloc.2) := by
        rw [mapStep, if_neg hunbound, if_pos halloc]
      rw [hmap]
      refine ⟨l', _, hstep _ _ _ ?_, hl.insertNew hinv hextends hsplit.eq unbound, hmax, ?_⟩
      · rw [insertAt, matching]
        exact hinsert
      · rw [hsplit.eq]
        simp
        omega
    | false =>
      obtain ⟨l', hinsert, hinv, hkey, hvalue, hmax⟩ := hfailure halloc
      have hmap : mapStep h M nodes (.insert key value) =
          (.code .errorMemory, M, nodes.alloc.2) := by
        rw [mapStep, if_neg hunbound, if_neg (by rw [halloc]; exact Bool.false_ne_true)]
      rw [hmap]
      refine ⟨l', ns, hstep _ _ _ ?_, ⟨hinv, ?_⟩, hmax, Nat.le_succ _⟩
      · rw [insertAt, matching]
        exact hinsert
      · rw [hkey, hvalue]
        exact hl.lists

/-- **A search** reads the finite map. -/
theorem slSearch_eq (hl : Represents h l ns M) (key : κ) {fuel : ℕ} (hfuel : ns.length < fuel) :
    slSearch cmp fuel l (some key) = some (M (h.keyClass key)).join := by
  obtain ⟨lo, up, cur, update, hsplit, hdescend, hupdate, hfound⟩ := hl.find key hfuel
  rw [slSearch, hdescend, Option.map_some]
  dsimp only
  cases hfound with
  | present c rest eq class_eq bound matching =>
    rw [bound, matching]
    rfl
  | absent ne unbound matching =>
    rw [unbound, matching]
    rfl

/-- **A deletion** is one of the finite map. -/
theorem step_delete (hl : Represents h l ns M) (key : κ) (nodes : Allocator) {fuel : ℕ}
    (hfuel : ns.length < fuel) :
    ∃ l' ns', step cmp fuel l nodes (.delete key) =
        some ((mapStep h M nodes (.delete key)).1, l', (mapStep h M nodes (.delete key)).2.2) ∧
      Represents h l' ns' (mapStep h M nodes (.delete key)).2.1 ∧ l'.maxLevel = l.maxLevel ∧
      ns'.length ≤ ns.length + 1 := by
  classical
  obtain ⟨lo, up, cur, update, hsplit, hdescend, hupdate, hfound⟩ := hl.find key hfuel
  have hstep : ∀ e l', l.deleteAt cmp key cur update = some (e, l') →
      step cmp fuel l nodes (.delete key) = some (.code e, l', nodes) := by
    intro e l' hdelete
    rw [step, slDelete, updateArray_always]
    dsimp only
    rw [if_pos rfl, hdescend, Option.bind_some, hdelete]
    rfl
  cases hfound with
  | present c rest eq class_eq bound matching =>
    have hmap : mapStep h M nodes (.delete key : Call κ υ) =
        (.code .success, Function.update M (h.keyClass key) none, nodes) := by
      rw [mapStep, if_pos (by rw [bound]; rfl)]
    have hns : ns = lo ++ c :: rest := by rw [hsplit.eq, eq]
    obtain ⟨l₁, hunlink, hinv, hkey, hvalue, hmax⟩ := Inv.delete (hns ▸ hl.inv) hupdate
    rw [hmap]
    refine ⟨_, lo ++ rest, hstep _ _ ?_, ⟨hinv, ?_⟩, hmax, ?_⟩
    · rw [deleteAt, matching]
      dsimp only
      rw [hunlink]
      rfl
    · have herase := (hl.lists.perm (hns ▸ List.perm_middle.symm :
        (c :: (lo ++ rest)).Perm ns)).erase
      rw [← class_eq, ← hkey, ← hvalue] at herase
      exact herase
    · rw [hns]
      simp
      omega
  | absent ne unbound matching =>
    have hmap : mapStep h M nodes (.delete key : Call κ υ) = (.code .errorNotFound, M, nodes) := by
      rw [mapStep, if_neg (by rw [unbound]; exact Bool.false_ne_true)]
    rw [hmap]
    refine ⟨l, ns, hstep _ _ ?_, hl, rfl, Nat.le_succ _⟩
    rw [deleteAt, matching]

/-- **One call.** -/
theorem step_refines (hl : Represents h l ns M) (nodes : Allocator) (c : Call κ υ) {fuel : ℕ}
    (hfuel : ns.length < fuel) :
    ∃ l' ns', step cmp fuel l nodes c =
        some ((mapStep h M nodes c).1, l', (mapStep h M nodes c).2.2) ∧
      Represents h l' ns' (mapStep h M nodes c).2.1 ∧ l'.maxLevel = l.maxLevel ∧
      ns'.length ≤ ns.length + 1 := by
  cases c with
  | insert key value => exact step_insert hl key value nodes hfuel
  | search key =>
    refine ⟨l, ns, ?_, hl, rfl, Nat.le_succ _⟩
    rw [step, slSearch_eq hl key hfuel]
    rfl
  | delete key => exact step_delete hl key nodes hfuel

/-! ## Whole runs -/

/-- **A run simulates the run on the finite map**, given more fuel than nodes. -/
theorem run_refines (calls : List (Call κ υ)) (hl : Represents h l ns M) (nodes : Allocator)
    {fuel : ℕ} (hfuel : ns.length + calls.length < fuel) :
    ∃ l' ns', run cmp fuel l nodes calls =
        some ((mapRun h M nodes calls).1, l', (mapRun h M nodes calls).2.2) ∧
      Represents h l' ns' (mapRun h M nodes calls).2.1 ∧ l'.maxLevel = l.maxLevel := by
  induction calls generalizing l ns M nodes with
  | nil => exact ⟨l, ns, rfl, hl, rfl⟩
  | cons c calls ih =>
    rw [List.length_cons] at hfuel
    obtain ⟨l₁, ns₁, hstep, hl₁, hmax₁, hlen⟩ :=
      step_refines hl nodes c (show ns.length < fuel by omega)
    obtain ⟨l₂, ns₂, hrun, hl₂, hmax₂⟩ := ih hl₁ (mapStep h M nodes c).2.2
      (show ns₁.length + calls.length < fuel by omega)
    refine ⟨l₂, ns₂, ?_, hl₂, hmax₂.trans hmax₁⟩
    rw [run, hstep]
    dsimp only [Option.bind_eq_bind, Option.bind_some]
    rw [hrun]
    rfl

/-- A skip list that was just created is empty. -/
theorem represents_createSkipList [Inhabited κ] (h : IsComparator cmp) {maxLevel : ℤ}
    {seed : UInt32} {nodes nodes₀ arrays arrays₀ : Allocator} {l : SkipList κ υ}
    (hcreate : createSkipList maxLevel seed nodes arrays = (some l, nodes₀, arrays₀)) :
    Represents h l [] (fun _ => none) ∧ l.maxLevel = (maxLevel - 1).toNat := by
  rw [createSkipList] at hcreate
  dsimp only at hcreate
  split at hcreate
  · exact absurd (congrArg Prod.fst hcreate) (by simp)
  · have hsome := congrArg Prod.fst hcreate
    obtain ⟨-, hsome⟩ := Option.ite_none_right_eq_some.mp hsome
    obtain rfl := Option.some.inj hsome
    refine ⟨⟨⟨fun i _ => ⟨rfl, rfl⟩, List.Pairwise.nil, by simp, by simp, Nat.zero_le _, ?_, rfl⟩,
      .nil⟩, rfl⟩
    intro a ha
    rw [List.mem_singleton.mp ha]
    exact Nat.lt_succ_self _

/-- **The levels of a skip list**: level 0 passes the nodes `ns`, whose keys ascend, and every
level passes those nodes of `ns` that are on it. -/
structure Levels (cmp : κ → κ → ℤ) (l : SkipList κ υ) (ns : List ℕ) : Prop where
  ascending : ns.Pairwise fun a b => cmp (l.key a) (l.key b) < 0
  bottom : Follows (l.forward 0) (l.forward 0 header) ns
  chain : ∀ i ≤ l.maxLevel,
    Follows (l.forward i) (l.forward i header) (ns.filter fun a => i ≤ l.nodeLevel a)

theorem Inv.levels (hinv : Inv cmp l ns) : Levels cmp l ns where
  ascending := hinv.ascending
  bottom := by
    have hchain := (hinv.chain 0 (Nat.zero_le _)).2
    rwa [onLevel_zero] at hchain
  chain i hi := (hinv.chain i hi).2

/-- The size is the number of bindings, as an `int`. -/
theorem Represents.size_eq (hl : Represents h l ns M) : l.size = int32 (support M).ncard := by
  rw [hl.lists.ncard_support, hl.inv.size_eq]

/-- **The skip list is a finite map**, for every number of levels, comparator, seed and outcome of
the node allocations: given more fuel than calls, every run returns what the finite map returns,
ends with its bindings and has its levels in order. It counts the bindings as long as an `int` can:
there are at most `INT_MAX` of them in the state it ends in, however many there were before. -/
theorem skipList_refines_map [Inhabited κ] (h : IsComparator cmp) {maxLevel : ℤ} {seed : UInt32}
    {nodes nodes₀ arrays arrays₀ : Allocator} {l₀ : SkipList κ υ}
    (hcreate : createSkipList maxLevel seed nodes arrays = (some l₀, nodes₀, arrays₀))
    (calls : List (Call κ υ)) {fuel : ℕ} (hfuel : calls.length < fuel) :
    ∃ l ns, run cmp fuel l₀ nodes₀ calls =
        some ((mapRun h (fun _ => none) nodes₀ calls).1, l,
          (mapRun h (fun _ => none) nodes₀ calls).2.2) ∧
      Lists (fun a => h.keyClass (l.key a)) l.value ns
        (mapRun h (fun _ => none) nodes₀ calls).2.1 ∧
      ((support (mapRun h (fun _ => none) nodes₀ calls).2.1).ncard ≤ intMax →
        l.size = (support (mapRun h (fun _ => none) nodes₀ calls).2.1).ncard) ∧
      l.maxLevel = (maxLevel - 1).toNat ∧ Levels cmp l ns := by
  obtain ⟨hempty, hmax₀⟩ := represents_createSkipList h hcreate
  obtain ⟨l, ns, hrun, hl, hmax⟩ := run_refines calls hempty nodes₀
    (show [].length + calls.length < fuel by simpa using hfuel)
  exact ⟨l, ns, hrun, hl.lists, fun hle => hl.size_eq.trans (int32_natCast hle),
    hmax.trans hmax₀, hl.inv.levels⟩

/-- The header is to be had, and the first node is not. -/
def firstNodeFails : Allocator := ⟨fun n => n ≠ 1⟩

/-- A run that inserts, overwrites, searches and deletes. -/
def shortRun : List (Call ℤ ℕ) :=
  [.insert 2 (some 20), .insert 1 none, .insert 2 (some 21), .search 2, .delete 2]

theorem keyClass_two_ne : Foundation.subtract_isComparator.keyClass 2 ∉
    ({Foundation.subtract_isComparator.keyClass 1} : Set _) := fun heq => by
  have hzero := Foundation.subtract_isComparator.keyClass_eq_iff.mp (Set.mem_singleton_iff.mp heq)
  omega

open Classical in
theorem mapRun_shortRun :
    mapRun Foundation.subtract_isComparator (fun _ => none) firstNodeFails.alloc.2 shortRun =
      ([.code .errorMemory, .code .success, .code .success, .value (some 21), .code .success],
        Function.update
          (Function.update (fun _ => none) (Foundation.subtract_isComparator.keyClass 1)
            (some none)) (Foundation.subtract_isComparator.keyClass 2) none,
        .always) := by
  have hne := Set.mem_singleton_iff.not.mp keyClass_two_ne
  simp [firstNodeFails, shortRun, mapRun, mapStep, Allocator.alloc, Allocator.always, hne]

theorem skipList_refines_map_subtract :
    ∃ l₀ l ns, createSkipList 4 7 firstNodeFails .always =
        (some l₀, firstNodeFails.alloc.2, .always) ∧
      run (fun a b : ℤ => a - b) 6 l₀ firstNodeFails.alloc.2 shortRun =
        some ([.code .errorMemory, .code .success, .code .success, .value (some 21),
          .code .success], l, .always) ∧
      l.size = 1 ∧ l.maxLevel = 3 ∧ Levels (fun a b => a - b) l ns := by
  classical
  obtain ⟨l₀, hcreate⟩ : ∃ l₀ : SkipList ℤ ℕ, createSkipList 4 7 firstNodeFails .always =
      (some l₀, firstNodeFails.alloc.2, .always) := ⟨_, rfl⟩
  obtain ⟨l, ns, hrun, -, hsize, hmax, hlevels⟩ := skipList_refines_map
    Foundation.subtract_isComparator hcreate shortRun (show shortRun.length < 6 by decide)
  rw [mapRun_shortRun] at hrun hsize
  have hone : (support (Function.update (Function.update (fun _ => none)
      (Foundation.subtract_isComparator.keyClass 1) (some (none : Option ℕ)))
      (Foundation.subtract_isComparator.keyClass 2) none)).ncard = 1 := by
    rw [Foundation.support_update_none, Foundation.support_update_some, Foundation.support_none,
      insert_empty_eq, Set.sdiff_singleton_eq_self keyClass_two_ne, Set.ncard_singleton]
  rw [hone] at hsize
  exact ⟨l₀, l, ns, hcreate, hrun, hsize (by decide), hmax, hlevels⟩

/-! ## Past `INT_MAX` -/

/-- Insertions that all get their nodes bind their keys. -/
theorem mem_support_mapRun_insert (h : IsComparator cmp) (keys : List κ) (value : Option υ)
    (M : KeyMap h υ) (g : h.KeyClass) :
    g ∈ support (mapRun h M .always (keys.map fun key => .insert key value)).2.1 ↔
      (∃ key ∈ keys, h.keyClass key = g) ∨ g ∈ support M := by
  classical
  induction keys generalizing M with
  | nil => simp [mapRun]
  | cons key keys ih =>
    have hstep : mapStep h M .always (.insert key value) =
        (.code .success, Function.update M (h.keyClass key) (some value), .always) := by
      rw [mapStep]
      split
      · convert rfl
      · rw [Allocator.alloc_always, if_pos rfl]
    rw [List.map_cons, mapRun, hstep]
    dsimp only
    rw [ih]
    rw [Foundation.support_update_some]
    simp only [Set.mem_insert_iff, List.mem_cons, exists_eq_or_imp, eq_comm (a := g)]
    rw [or_left_comm, or_assoc]

/-- Insertions of `0`, `1`, and so on. -/
def manyInsertions (n : ℕ) : List (Call ℤ Unit) :=
  ((List.range n).map Nat.cast).map fun key => .insert key none

/-- They bind as many keys. -/
theorem ncard_manyInsertions (n : ℕ) :
    (support (mapRun Foundation.subtract_isComparator (fun _ => none) .always
      (manyInsertions n)).2.1).ncard = n := by
  have henum : Foundation.Enumerates
      (fun k : ℕ => Foundation.subtract_isComparator.keyClass (k : ℤ)) (List.range n)
      (support (mapRun Foundation.subtract_isComparator (fun _ => none) .always
        (manyInsertions n)).2.1) := by
    refine ⟨List.nodup_range.map fun j k hjk => ?_, fun g => ?_⟩
    · have hzero : (j : ℤ) - k = 0 := Foundation.subtract_isComparator.keyClass_eq_iff.mp hjk
      omega
    · rw [manyInsertions, mem_support_mapRun_insert]
      constructor
      · rintro (⟨key, hkey, hg⟩ | hg)
        · obtain ⟨k, hk, rfl⟩ := List.mem_map.mp hkey
          exact ⟨k, hk, hg⟩
        · rw [Foundation.support_none] at hg
          exact absurd hg (Set.notMem_empty g)
      · rintro ⟨k, hk, hg⟩
        exact .inl ⟨k, List.mem_map_of_mem hk, hg⟩
  rw [henum.ncard_eq, List.length_range]

/-- **`INT_MAX + 1` keys**: every insertion succeeds, and the size is negative. -/
theorem skipList_size_beyond_intMax :
    ∃ l₀ l : SkipList ℤ Unit, createSkipList 4 7 .always .always = (some l₀, .always, .always) ∧
      (∃ rs nodes, run (fun a b : ℤ => a - b) (intMax + 2) l₀ .always
        (manyInsertions (intMax + 1)) = some (rs, l, nodes)) ∧
      (support (mapRun Foundation.subtract_isComparator (fun _ => none) .always
        (manyInsertions (intMax + 1))).2.1).ncard = intMax + 1 ∧
      l.size = -2147483648 := by
  obtain ⟨n, hn⟩ : ∃ n, n = intMax + 1 := ⟨_, rfl⟩
  have hfuel : intMax + 2 = n + 1 := by omega
  rw [hfuel, ← hn]
  obtain ⟨l₀, hcreate⟩ : ∃ l₀ : SkipList ℤ Unit,
      createSkipList 4 7 .always .always = (some l₀, .always, .always) := ⟨_, rfl⟩
  obtain ⟨hempty, -⟩ := represents_createSkipList Foundation.subtract_isComparator hcreate
  obtain ⟨l, ns, hrun, hl, -⟩ := run_refines (manyInsertions n) hempty .always
    (show [].length + (manyInsertions n).length < n + 1 by simp [manyInsertions])
  refine ⟨l₀, l, hcreate, ⟨_, _, hrun⟩, ncard_manyInsertions n, ?_⟩
  rw [hl.size_eq, ncard_manyInsertions, hn]
  rfl

end SkipList

end OvaLib
