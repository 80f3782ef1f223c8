import Mathlib.Algebra.BigOperators.Group.Finset.Basic
import Mathlib.Algebra.BigOperators.Option
import Mathlib.Algebra.Order.BigOperators.Group.List
import Mathlib.Data.Nat.Fib.Basic
import Mathlib.Data.Set.Card
import Mathlib.Tactic.NormNum.NatFib
import OvaLib.Foundation.Ring

/-!
# Forests by their lists of children

A forest on `nodes` is given by a function `R`: `R none` lists the roots, `R (some a)` the children
of `a`. Every node is in exactly one list, and a rank that falls from parent to child rules out
cycles.

In a thin forest the `i`-th child of a node has at least `i - 1` children itself. The number of
children is then logarithmic in the number of nodes, by way of the Fibonacci numbers.

## Why lists of children

A data structure with rings or lists of siblings has these lists as they are, and an edit of a
forest, moving a subtree, changes two of them. No tree has to be rebuilt. What has to be seen to is
that no node comes to be below itself; the rank is only said to exist, and an edit gives another
one. A node that moves to the roots, or a root that moves under another one, allows that at once.

## Counting

The size of a subtree is defined down to some depth, since there is no structural recursion over a
relation; the rank says that a depth is enough. The bound adds up subtrees: a node with `d` children
has below it subtrees with at least as many nodes as the Fibonacci numbers up to `d` add up to.

## Main results

* `IsForest.induction` — what holds of the roots and passes to children holds of all nodes
* `IsForest.fib_le_subtree` — a node of a thin forest with `d` children has `fib (d + 2)` nodes at
  or below it
* `IsForest.fib_le_card` — there are no fewer nodes in the forest
* `IsForest.toRoots`, `IsForest.underRoot` — moving a subtree
* `IsForest.addRoot`, `IsForest.removeRoot` — a new node, and a node less
* `IsForest.exists_postorder` — every node is listed once, after its children
-/

namespace Foundation

variable {α : Type*}

/-- **A forest**: the lists partition the nodes, and no path returns. -/
structure IsForest (R : Option α → List α) (nodes : Finset α) : Prop extends Apart R where
  mem_iff : ∀ {a}, a ∈ nodes ↔ ∃ o, a ∈ R o
  /-- Only nodes have children. -/
  owner_mem : ∀ {a b}, b ∈ R (some a) → a ∈ nodes
  /-- No path returns. -/
  ranked : ∃ rank : α → ℕ, ∀ {a b}, b ∈ R (some a) → rank b < rank a

/-- The `i`-th child of a node has at least `i - 1` children. -/
def Thin (R : Option α → List α) : Prop :=
  ∀ a i b, (R (some a))[i]? = some b → i ≤ (R (some b)).length + 1

/-- The nodes at or below a node. -/
def subtree (R : Option α → List α) (a : α) : Set α :=
  {b | Relation.ReflTransGen (fun p c => c ∈ R (some p)) a b}

namespace IsForest

variable {R : Option α → List α} {nodes : Finset α}

theorem mem (h : IsForest R nodes) {a : α} {o : Option α} (ha : a ∈ R o) : a ∈ nodes :=
  h.mem_iff.mpr ⟨o, ha⟩

/-- A node outside the forest has no children. -/
theorem eq_nil (h : IsForest R nodes) {a : α} (ha : a ∉ nodes) : R (some a) = [] :=
  List.eq_nil_iff_forall_not_mem.mpr fun _ hb => ha (h.owner_mem hb)

/-- **Induction from the roots down.** -/
theorem induction (h : IsForest R nodes) {P : α → Prop} (hroot : ∀ a ∈ R none, P a)
    (hchild : ∀ a ∈ nodes, P a → ∀ b ∈ R (some a), P b) : ∀ a ∈ nodes, P a := by
  obtain ⟨rank, hrank⟩ := h.ranked
  obtain ⟨bound, hbound⟩ : ∃ n, ∀ a ∈ nodes, rank a ≤ n :=
    ⟨nodes.sup rank, fun a ha => Finset.le_sup ha⟩
  intro a ha
  -- the distance to the highest rank falls towards the root
  induction hd : bound - rank a using Nat.strong_induction_on generalizing a with
  | _ d ih =>
    obtain ⟨o, hao⟩ := h.mem_iff.mp ha
    cases o with
    | none => exact hroot a hao
    | some p =>
      have hlt := hrank hao
      have hp := h.owner_mem hao
      have := hbound p hp
      exact hchild p hp (ih _ (by omega) p hp rfl) a hao

/-! ## Counting -/

theorem sum_nodes [DecidableEq α] (h : IsForest R nodes) (f : α → ℕ) :
    ∑ a ∈ nodes, f a = ((R none).map f).sum + ∑ a ∈ nodes, ((R (some a)).map f).sum := by
  have hsum : ∀ o, ((R o).map f).sum = ∑ a ∈ (R o).toFinset, f a :=
    fun o => (List.sum_toFinset f (h.nodup o)).symm
  have hunion : nodes = nodes.insertNone.biUnion fun o => (R o).toFinset := by
    ext a
    simp only [Finset.mem_biUnion, List.mem_toFinset]
    constructor
    · intro ha
      obtain ⟨o, hao⟩ := h.mem_iff.mp ha
      refine ⟨o, Finset.mem_insertNone.mpr fun p hp => ?_, hao⟩
      cases hp
      exact h.owner_mem hao
    · rintro ⟨o, -, hao⟩
      exact h.mem hao
  have hdisj : (nodes.insertNone : Set (Option α)).PairwiseDisjoint fun o => (R o).toFinset := by
    intro o _ o' _ ho
    refine Finset.disjoint_left.mpr fun a ha ha' => ho ?_
    exact h.disjoint (List.mem_toFinset.mp ha) (List.mem_toFinset.mp ha')
  calc ∑ a ∈ nodes, f a
      = ∑ o ∈ nodes.insertNone, ∑ a ∈ (R o).toFinset, f a := by
        conv_lhs => rw [hunion]
        exact Finset.sum_biUnion hdisj
    _ = ∑ o ∈ nodes.insertNone, ((R o).map f).sum :=
        Finset.sum_congr rfl fun o _ => (hsum o).symm
    _ = _ := Finset.sum_insertNone _ _

/-- The size of a subtree, down to the given depth. -/
def sizeUpTo (R : Option α → List α) : ℕ → α → ℕ
  | 0, _ => 0
  | k + 1, a => 1 + ((R (some a)).map (sizeUpTo R k)).sum

/-- A depth beyond the rank is deep enough. -/
theorem sizeUpTo_congr {rank : α → ℕ} (hrank : ∀ {a b}, b ∈ R (some a) → rank b < rank a)
    (k k' : ℕ) {a : α} (hk : rank a < k) (hk' : rank a < k') :
    sizeUpTo R k a = sizeUpTo R k' a := by
  induction k generalizing k' a with
  | zero => exact absurd hk (Nat.not_lt_zero _)
  | succ k ih =>
    cases k' with
    | zero => exact absurd hk' (Nat.not_lt_zero _)
    | succ k' =>
      rw [sizeUpTo, sizeUpTo]
      congr 2
      refine List.map_congr_left fun b hb => ?_
      have hlt := hrank hb
      exact ih k' (by omega) (by omega)

/-- **Sizes of subtrees.** -/
theorem exists_size (h : IsForest R nodes) :
    ∃ size : α → ℕ, ∀ a, size a = 1 + ((R (some a)).map size).sum := by
  obtain ⟨rank, hrank⟩ := h.ranked
  refine ⟨fun a => sizeUpTo R (rank a + 1) a, fun a => ?_⟩
  show sizeUpTo R (rank a + 1) a = _
  rw [sizeUpTo]
  congr 2
  exact List.map_congr_left fun b hb =>
    sizeUpTo_congr hrank _ _ (hrank hb) (Nat.lt_succ_self _)

/-- The trees together have as many nodes as there are. -/
theorem sum_size_roots [DecidableEq α] (h : IsForest R nodes) {size : α → ℕ}
    (hsize : ∀ a, size a = 1 + ((R (some a)).map size).sum) :
    ((R none).map size).sum = nodes.card := by
  have hsum := h.sum_nodes size
  have hsplit : ∑ a ∈ nodes, size a =
      nodes.card + ∑ a ∈ nodes, ((R (some a)).map size).sum := by
    rw [Finset.card_eq_sum_ones, ← Finset.sum_add_distrib]
    exact Finset.sum_congr rfl fun a _ => hsize a
  omega

/-! ## Listing -/

/-- The nodes at or below a node, each after its children, down to the given depth. -/
def postorder (R : Option α → List α) : ℕ → α → List α
  | 0, _ => []
  | k + 1, a => (R (some a)).flatMap (postorder R k) ++ [a]

theorem postorder_congr {rank : α → ℕ} (hrank : ∀ {a b}, b ∈ R (some a) → rank b < rank a)
    (k k' : ℕ) {a : α} (hk : rank a < k) (hk' : rank a < k') :
    postorder R k a = postorder R k' a := by
  induction k generalizing k' a with
  | zero => exact absurd hk (Nat.not_lt_zero _)
  | succ k ih =>
    cases k' with
    | zero => exact absurd hk' (Nat.not_lt_zero _)
    | succ k' =>
      rw [postorder, postorder]
      congr 1
      refine List.flatMap_congr fun b hb => ?_
      have hlt := hrank hb
      exact ih k' (by omega) (by omega)

/-- **A listing in postorder**: each node comes once, after its children. -/
theorem exists_postorder [DecidableEq α] (h : IsForest R nodes) :
    ∃ order : α → List α, (∀ a, order a = (R (some a)).flatMap order ++ [a]) ∧
      ((R none).flatMap order).Nodup ∧ ∀ a, a ∈ (R none).flatMap order ↔ a ∈ nodes := by
  obtain ⟨rank, hrank⟩ := h.ranked
  obtain ⟨order, horder⟩ : ∃ order : α → List α,
      ∀ a, order a = (R (some a)).flatMap order ++ [a] := by
    refine ⟨fun a => postorder R (rank a + 1) a, fun a => ?_⟩
    show postorder R (rank a + 1) a = _
    rw [postorder]
    congr 1
    exact List.flatMap_congr fun b hb =>
      postorder_congr hrank _ _ (hrank hb) (Nat.lt_succ_self _)
  have hself : ∀ a, a ∈ order a := by
    intro a
    rw [horder]
    exact List.mem_concat_self
  -- a listing that has a node has its children
  have hclosed : ∀ {b c : α}, c ∈ R (some b) → ∀ a, b ∈ order a → c ∈ order a := by
    intro b c hc a
    induction hr : rank a using Nat.strong_induction_on generalizing a with
    | _ r ih =>
      intro hb
      rw [horder] at hb ⊢
      rcases List.mem_append.mp hb with hb | hb
      · obtain ⟨d, hd, hb⟩ := List.mem_flatMap.mp hb
        refine List.mem_append_left _ (List.mem_flatMap.mpr ⟨d, hd, ?_⟩)
        exact ih (rank d) (hr ▸ hrank hd) d rfl hb
      · rw [List.mem_singleton] at hb
        subst hb
        exact List.mem_append_left _ (List.mem_flatMap.mpr ⟨c, hc, hself c⟩)
  have hcover : ∀ a ∈ nodes, a ∈ (R none).flatMap order := by
    refine h.induction (fun a ha => List.mem_flatMap.mpr ⟨a, ha, hself a⟩) ?_
    intro a _ ha b hb
    obtain ⟨r, hr, har⟩ := List.mem_flatMap.mp ha
    exact List.mem_flatMap.mpr ⟨r, hr, hclosed hb r har⟩
  have hlength : ((R none).flatMap order).length = nodes.card := by
    rw [List.length_flatMap]
    refine h.sum_size_roots fun a => ?_
    rw [horder, List.length_append, List.length_flatMap, List.length_singleton, Nat.add_comm]
  have hsubset : nodes ⊆ ((R none).flatMap order).toFinset := by
    intro a ha
    exact List.mem_toFinset.mpr (hcover a ha)
  have hcard : nodes.card ≤ ((R none).flatMap order).toFinset.card := Finset.card_le_card hsubset
  have hle := List.toFinset_card_le ((R none).flatMap order)
  refine ⟨order, horder, ?_, fun a => ⟨fun ha => ?_, hcover a⟩⟩
  · refine Multiset.coe_nodup.mp (Multiset.toFinset_card_eq_card_iff_nodup.mp ?_)
    show ((R none).flatMap order).toFinset.card = ((R none).flatMap order).length
    omega
  · rw [Finset.eq_of_subset_of_card_le hsubset (by omega), List.mem_toFinset]
    exact ha

/-! ## Thin forests -/

/-- Weights that keep up with the Fibonacci numbers. -/
theorem fib_le_sum {f : α → ℕ} {l : List α} (hl : ∀ i b, l[i]? = some b → Nat.fib (i + 1) ≤ f b) :
    Nat.fib (l.length + 2) ≤ 1 + (l.map f).sum := by
  induction l using List.reverseRecOn with
  | nil => simp
  | append_singleton l b ih =>
    have hinit := ih fun i c hi => hl i c (by
      rw [List.getElem?_append_left (List.getElem?_eq_some_iff.mp hi).1]
      exact hi)
    have hlast := hl l.length b (by simp)
    have hstep : Nat.fib (l.length + 1 + 2) = Nat.fib (l.length + 1) + Nat.fib (l.length + 2) :=
      Nat.fib_add_two
    rw [List.length_append, List.length_singleton, List.map_append, List.sum_append, hstep]
    simp only [List.map_cons, List.map_nil, List.sum_cons, List.sum_nil]
    omega

theorem fib_le_size (h : IsForest R nodes) (hthin : Thin R) {size : α → ℕ}
    (hsize : ∀ a, size a = 1 + ((R (some a)).map size).sum) (a : α) :
    Nat.fib ((R (some a)).length + 2) ≤ size a := by
  obtain ⟨rank, hrank⟩ := h.ranked
  induction hr : rank a using Nat.strong_induction_on generalizing a with
  | _ r ih =>
    rw [hsize]
    refine fib_le_sum fun i b hi => ?_
    have hlt := hrank (List.mem_of_getElem? hi)
    calc Nat.fib (i + 1) ≤ Nat.fib ((R (some b)).length + 2) := Nat.fib_mono (by
          have := hthin a i b hi
          omega)
      _ ≤ size b := ih (rank b) (hr ▸ hlt) b rfl

/-- **A root of a thin forest** with `d` children makes for `fib (d + 2)` nodes. -/
theorem fib_le_card_of_root [DecidableEq α] (h : IsForest R nodes) (hthin : Thin R) {a : α}
    (ha : a ∈ R none) : Nat.fib ((R (some a)).length + 2) ≤ nodes.card := by
  obtain ⟨size, hsize⟩ := h.exists_size
  calc Nat.fib ((R (some a)).length + 2) ≤ size a := h.fib_le_size hthin hsize a
    _ ≤ ((R none).map size).sum := List.le_sum_of_mem (List.mem_map_of_mem ha)
    _ = nodes.card := h.sum_size_roots hsize

/-! ## Subtrees -/

theorem subtree_subset (h : IsForest R nodes) {a : α} (ha : a ∈ nodes) :
    subtree R a ⊆ (nodes : Set α) := by
  intro b hb
  induction hb with
  | refl => exact ha
  | tail _ hc _ => exact h.mem hc

/-- Ranks do not rise on the way down. -/
theorem rank_le_of_mem_subtree {rank : α → ℕ} (hrank : ∀ {a b}, b ∈ R (some a) → rank b < rank a)
    {a b : α} (hb : b ∈ subtree R a) : rank b ≤ rank a := by
  induction hb with
  | refl => exact le_rfl
  | tail _ hc ih => exact (hrank hc).le.trans ih

/-- **A subtree is a forest of its own**, with one root. -/
theorem exists_subforest (h : IsForest R nodes) {a : α} (ha : a ∈ nodes) :
    ∃ R' nodes', IsForest R' nodes' ∧ R' none = [a] ∧ (nodes' : Set α) = subtree R a ∧
      (∀ b ∈ subtree R a, R' (some b) = R (some b)) ∧ ∀ b ∉ subtree R a, R' (some b) = [] := by
  classical
  have hmem : ∀ b, b ∈ nodes.filter (· ∈ subtree R a) ↔ b ∈ subtree R a := fun b => by
    rw [Finset.mem_filter]
    exact and_iff_right_of_imp fun hb => h.subtree_subset ha hb
  obtain ⟨R', hnone, hsome⟩ : ∃ R' : Option α → List α, R' none = [a] ∧
      ∀ b, R' (some b) = if b ∈ subtree R a then R (some b) else [] :=
    ⟨fun o => o.elim [a] fun b => if b ∈ subtree R a then R (some b) else [], rfl, fun _ => rfl⟩
  have hchild : ∀ {p b}, b ∈ R' (some p) ↔ p ∈ subtree R a ∧ b ∈ R (some p) := by
    intro p b
    rw [hsome]
    split_ifs with hp
    · exact (and_iff_right hp).symm
    · exact iff_of_false List.not_mem_nil fun hb => hp hb.1
  obtain ⟨rank, hrank⟩ := h.ranked
  -- nothing below `a` has `a` for a child
  have htop : ∀ p, a ∉ R' (some p) := fun p hp => by
    obtain ⟨hp, hap⟩ := hchild.mp hp
    exact absurd (rank_le_of_mem_subtree hrank hp) (not_le.mpr (hrank hap))
  refine ⟨R', nodes.filter (· ∈ subtree R a), ⟨⟨fun o => ?_, fun {b o o'} hb hb' => ?_⟩,
    fun {b} => ?_, fun hb => (hmem _).mpr (hchild.mp hb).1,
    rank, fun hb => hrank (hchild.mp hb).2⟩, hnone, Set.ext fun b => hmem b,
    fun b hb => (hsome b).trans (if_pos hb), fun b hb => (hsome b).trans (if_neg hb)⟩
  · cases o with
    | none => rw [hnone]; exact List.nodup_singleton a
    | some p =>
      rw [hsome]
      split_ifs
      · exact h.nodup _
      · exact List.nodup_nil
  · cases o with
    | none =>
      obtain rfl : b = a := by rwa [hnone, List.mem_singleton] at hb
      cases o' with
      | none => rfl
      | some p => exact absurd hb' (htop p)
    | some p =>
      cases o' with
      | none =>
        obtain rfl : b = a := by rwa [hnone, List.mem_singleton] at hb'
        exact absurd hb (htop p)
      | some p' => exact h.disjoint (hchild.mp hb).2 (hchild.mp hb').2
  · rw [hmem, Option.exists, hnone, List.mem_singleton]
    simp only [hchild]
    rw [subtree, Set.mem_ofPred_eq, Relation.ReflTransGen.cases_tail_iff]
    exact Iff.rfl

/-- **A node of a thin forest** with `d` children has `fib (d + 2)` nodes at or below it. -/
theorem fib_le_subtree [DecidableEq α] (h : IsForest R nodes) (hthin : Thin R) {a : α}
    (ha : a ∈ nodes) : Nat.fib ((R (some a)).length + 2) ≤ (subtree R a).ncard := by
  obtain ⟨R', nodes', hF, hroot, hnodes, hinside, houtside⟩ := h.exists_subforest ha
  have hthin' : Thin R' := by
    intro p i b hi
    have hp : p ∈ subtree R a := by
      by_contra hp
      rw [houtside p hp] at hi
      cases hi
    rw [hinside p hp] at hi
    have hb : b ∈ subtree R a := Relation.ReflTransGen.tail hp (List.mem_of_getElem? hi)
    rw [hinside b hb]
    exact hthin p i b hi
  have hfib := hF.fib_le_card_of_root hthin' (hroot ▸ List.mem_singleton_self a : a ∈ R' none)
  rwa [hinside a Relation.ReflTransGen.refl, ← Set.ncard_coe_finset, hnodes] at hfib

/-- **A thin forest** in which some node has `d` children has `fib (d + 2)` nodes. -/
theorem fib_le_card [DecidableEq α] (h : IsForest R nodes) (hthin : Thin R) {a : α}
    (ha : a ∈ nodes) : Nat.fib ((R (some a)).length + 2) ≤ nodes.card := by
  calc Nat.fib ((R (some a)).length + 2) ≤ (subtree R a).ncard := h.fib_le_subtree hthin ha
    _ ≤ (nodes : Set α).ncard :=
      Set.ncard_le_ncard (h.subtree_subset ha) nodes.finite_toSet
    _ = nodes.card := Set.ncard_coe_finset nodes

/-! ## Edits

What is left of the other lists is given as a function update. -/

section

variable [DecidableEq α] {o : Option α} {l : List α} {x : α}

theorem mem_update_update {R : Option α → List α} {o o' : Option α} {l l' : List α}
    (ho : o ≠ o') (p : Option α) (a : α) :
    a ∈ Function.update (Function.update R o l) o' l' p ↔
      (p = o' ∧ a ∈ l') ∨ (p = o ∧ a ∈ l) ∨ (p ≠ o ∧ p ≠ o' ∧ a ∈ R p) := by
  by_cases hp' : p = o'
  · subst hp'
    simp [Ne.symm ho]
  · by_cases hp : p = o
    · subst hp
      simp [hp']
    · simp [hp, hp']

/-- Moving a subtree to another list, as long as ranks can be found. -/
theorem move (h : IsForest R nodes) {o' : Option α} (hx : x ∈ R o) (ho : o ≠ o')
    (hl : l.Perm (x :: R o')) (howner : ∀ a, o' = some a → a ∈ nodes)
    (hranked : ∃ rank : α → ℕ, ∀ {a b},
      b ∈ Function.update (Function.update R o ((R o).erase x)) o' l (some a) → rank b < rank a) :
    IsForest (Function.update (Function.update R o ((R o).erase x)) o' l) nodes where
  toApart := by
    have hxo' : x ∉ R o' := h.notMem_of_ne hx ho.symm
    refine Apart.update (h.toApart.update ((h.nodup o).erase x) fun a ha p hp =>
      h.notMem_of_ne (List.mem_of_mem_erase ha) hp) ?_ ?_
    · rw [hl.nodup_iff, List.nodup_cons]
      exact ⟨hxo', h.nodup o'⟩
    · intro a ha p hp
      rcases List.mem_cons.mp (hl.mem_iff.mp ha) with rfl | ha
      · by_cases hpo : p = o
        · rw [hpo, Function.update_self]
          exact (h.nodup o).not_mem_erase
        · rw [Function.update_of_ne hpo]
          exact h.notMem_of_ne hx hpo
      · by_cases hpo : p = o
        · rw [hpo, Function.update_self]
          exact fun hmem => h.notMem_of_ne ha ho (List.mem_of_mem_erase hmem)
        · rw [Function.update_of_ne hpo]
          exact h.notMem_of_ne ha hp
  mem_iff := fun {a} => by
    rw [h.mem_iff]
    simp only [mem_update_update ho, hl.mem_iff, List.mem_cons, (h.nodup o).mem_erase_iff]
    constructor
    · rintro ⟨p, hp⟩
      by_cases hax : a = x
      · exact ⟨o', .inl ⟨rfl, .inl hax⟩⟩
      · by_cases hpo' : p = o'
        · exact ⟨o', .inl ⟨rfl, .inr (hpo' ▸ hp)⟩⟩
        · by_cases hpo : p = o
          · exact ⟨o, .inr (.inl ⟨rfl, hax, hpo ▸ hp⟩)⟩
          · exact ⟨p, .inr (.inr ⟨hpo, hpo', hp⟩)⟩
    · rintro ⟨p, ⟨-, rfl | hp⟩ | ⟨-, -, hp⟩ | ⟨-, -, hp⟩⟩
      · exact ⟨o, hx⟩
      · exact ⟨o', hp⟩
      · exact ⟨o, hp⟩
      · exact ⟨p, hp⟩
  owner_mem := fun {a b} hb => by
    rcases (mem_update_update ho _ _).mp hb with ⟨hp, -⟩ | ⟨hp, hmem⟩ | ⟨-, -, hmem⟩
    · exact howner a hp.symm
    · subst hp
      exact h.owner_mem (List.mem_of_mem_erase hmem)
    · exact h.owner_mem hmem
  ranked := hranked

/-- **Cutting a subtree off**: it becomes a tree of its own. -/
theorem toRoots (h : IsForest R nodes) {y : α} (hx : x ∈ R (some y)) (hl : l.Perm (x :: R none)) :
    IsForest (Function.update (Function.update R (some y) ((R (some y)).erase x)) none l)
      nodes := by
  obtain ⟨rank, hrank⟩ := h.ranked
  refine h.move hx (by simp) hl (by simp) ⟨rank, fun {a b} hb => ?_⟩
  rcases (mem_update_update (by simp) _ _).mp hb with ⟨hp, -⟩ | ⟨hp, hmem⟩ | ⟨-, -, hmem⟩
  · cases hp
  · cases hp
    exact hrank (List.mem_of_mem_erase hmem)
  · exact hrank hmem

/-- **Linking two trees**: the root `x` goes under the root `y`. -/
theorem underRoot (h : IsForest R nodes) {y : α} (hx : x ∈ R none) (hy : y ∈ R none) (hxy : x ≠ y)
    (hl : l.Perm (x :: R (some y))) :
    IsForest (Function.update (Function.update R none ((R none).erase x)) (some y) l) nodes := by
  obtain ⟨rank, hrank⟩ := h.ranked
  -- no child list holds `y`, so its rank may rise
  refine h.move hx (by simp) hl (fun a ha => by cases ha; exact h.mem hy)
    ⟨Function.update rank y (rank y + rank x + 1), fun {a b} hb => ?_⟩
  have hold : ∀ {a b}, b ∈ R (some a) →
      Function.update rank y (rank y + rank x + 1) b < rank a := by
    intro a b hb
    have hne : b ≠ y := fun heq => h.notMem_of_ne hy (by simp) (heq ▸ hb)
    rw [Function.update_of_ne hne]
    exact hrank hb
  rcases (mem_update_update (by simp) _ _).mp hb with ⟨hp, hmem⟩ | ⟨hp, -⟩ | ⟨-, hp, hmem⟩
  · cases hp
    rw [Function.update_self]
    rcases List.mem_cons.mp (hl.mem_iff.mp hmem) with rfl | hmem
    · rw [Function.update_of_ne hxy]
      omega
    · have := hold hmem
      omega
  · cases hp
  · rw [Function.update_of_ne (a := a) fun heq => hp (by rw [heq])]
    exact hold hmem

/-- The order of the roots does not matter. -/
theorem permRoots (h : IsForest R nodes) (hl : l.Perm (R none)) :
    IsForest (Function.update R none l) nodes := by
  obtain ⟨rank, hrank⟩ := h.ranked
  have hmem : ∀ o a, a ∈ Function.update R none l o ↔ a ∈ R o := by
    intro o a
    cases o with
    | none => rw [Function.update_self, hl.mem_iff]
    | some p => rw [Function.update_of_ne (by simp)]
  refine ⟨h.toApart.update (hl.nodup_iff.mpr (h.nodup none)) fun a ha p hp =>
    h.notMem_of_ne (hl.mem_iff.mp ha) hp, ?_, ?_, rank, ?_⟩
  · intro a
    simp only [h.mem_iff, hmem]
  · intro a b hb
    exact h.owner_mem ((hmem _ _).mp hb)
  · intro a b hb
    exact hrank ((hmem _ _).mp hb)

/-- **A new tree** of one node. -/
theorem addRoot (h : IsForest R nodes) (hx : x ∉ nodes) (hl : l.Perm (x :: R none)) :
    IsForest (Function.update R none l) (insert x nodes) := by
  obtain ⟨rank, hrank⟩ := h.ranked
  have hxR : ∀ o, x ∉ R o := fun o hxo => hx (h.mem hxo)
  have hchild : ∀ a, Function.update R none l (some a) = R (some a) :=
    fun a => Function.update_of_ne (by simp) _ _
  refine ⟨h.toApart.update ?_ ?_, ?_, ?_, rank, ?_⟩
  · rw [hl.nodup_iff, List.nodup_cons]
    exact ⟨hxR none, h.nodup none⟩
  · intro a ha p hp
    rcases List.mem_cons.mp (hl.mem_iff.mp ha) with rfl | ha
    · exact hxR p
    · exact h.notMem_of_ne ha hp
  · intro a
    rw [Finset.mem_insert, h.mem_iff, Option.exists, Option.exists, Function.update_self,
      hl.mem_iff, List.mem_cons, or_assoc]
    simp only [hchild]
  · intro a b hb
    rw [hchild] at hb
    exact Finset.mem_insert_of_mem (h.owner_mem hb)
  · intro a b hb
    rw [hchild] at hb
    exact hrank hb

/-- **Removing a root** that has no children. -/
theorem removeRoot (h : IsForest R nodes) (hx : x ∈ R none) (hleaf : R (some x) = []) :
    IsForest (Function.update R none ((R none).erase x)) (nodes.erase x) := by
  obtain ⟨rank, hrank⟩ := h.ranked
  have hchild : ∀ a, Function.update R none ((R none).erase x) (some a) = R (some a) :=
    fun a => Function.update_of_ne (by simp) _ _
  refine ⟨h.toApart.update ((h.nodup none).erase x) fun a ha p hp =>
    h.notMem_of_ne (List.mem_of_mem_erase ha) hp, ?_, ?_, rank, ?_⟩
  · intro a
    rw [Finset.mem_erase, h.mem_iff, Option.exists, Option.exists, Function.update_self,
      (h.nodup none).mem_erase_iff]
    simp only [hchild]
    constructor
    · rintro ⟨hax, ha | ha⟩
      · exact .inl ⟨hax, ha⟩
      · exact .inr ha
    · rintro (⟨hax, ha⟩ | ⟨p, ha⟩)
      · exact ⟨hax, .inl ha⟩
      · refine ⟨?_, .inr ⟨p, ha⟩⟩
        rintro rfl
        exact h.notMem_of_ne hx (by simp) ha
  · intro a b hb
    rw [hchild] at hb
    refine Finset.mem_erase.mpr ⟨?_, h.owner_mem hb⟩
    rintro rfl
    rw [hleaf] at hb
    exact absurd hb List.not_mem_nil
  · intro a b hb
    rw [hchild] at hb
    exact hrank hb

end

end IsForest

end Foundation
