import OvaLib.Foundation.Comparator
import OvaLib.Foundation.Segment
import OvaLib.SkipList.SkipList

/-!
# The levels of a skip list

`Inv cmp l ns`: the keys of the nodes `ns` ascend, and following the forward pointers of a level
from the header passes those nodes of `ns` that are on that level. For a key, `ns` is split into the
nodes below it and the rest; a walk for that key leaves each level at the last node of the first
part that is on the level, and there the operations splice. Which levels the nodes got makes no
difference.

## The walk

A walk comes down a level at the last node below the key on it. The nodes of the next level include
those of this one, so it goes on from a node that is on the next level and below the key, and what
it passes there is the rest of the nodes below the key. By induction on the levels, the entry that
it leaves for each level is the last node below the key on that level, or the header. At level 0 the
node behind it is the first that is not below the key, and is the one to compare with.

## The splices

An insertion links its node from level 0 up, a deletion unlinks one from level 0 up to the first
level it is not on. After some of the levels, the invariant holds with the node on these and without
it on the others. That is why the chains of the levels are stated one by one and not as one
structure: the state between two levels of a splice is described level by level.

## Main results

* `descend_spec` — where a walk leaves the levels
* `linkLevels_spec`, `unlinkLevels_spec` — the splices
* `Inv.insertNew`, `Inv.refuse`, `Inv.delete` — the operations keep the invariant
-/

namespace OvaLib

open Foundation (IsComparator Follows)

namespace SkipList

variable {κ υ : Type*} {cmp : κ → κ → ℤ} {l : SkipList κ υ} {ns lo up : List ℕ} {key : κ}

/-- The nodes that are on a level. -/
def onLevel (l : SkipList κ υ) (i : ℕ) (ns : List ℕ) : List ℕ :=
  ns.filter fun a => i ≤ l.nodeLevel a

/-- **The levels are sorted lists of the nodes on them.** -/
structure Inv (cmp : κ → κ → ℤ) (l : SkipList κ υ) (ns : List ℕ) : Prop where
  /-- The pointers of a level pass its nodes and end in `NULL`. -/
  chain : ∀ i ≤ l.maxLevel, Follows (l.forward i) (some header) (header :: l.onLevel i ns)
  /-- No key comes twice. -/
  ascending : ns.Pairwise fun a b => cmp (l.key a) (l.key b) < 0
  nodup : (header :: ns).Nodup
  /-- The walks start high enough to see every node. -/
  nodeLevel_le : ∀ a ∈ ns, l.nodeLevel a ≤ l.level
  level_le : l.level ≤ l.maxLevel
  lt_fresh : ∀ a ∈ header :: ns, a < l.fresh
  /-- The number of the nodes, as an `int`. -/
  size_eq : l.size = int32 ns.length

/-- The nodes below a key, and the others. -/
structure Splits (cmp : κ → κ → ℤ) (l : SkipList κ υ) (key : κ) (ns lo up : List ℕ) : Prop where
  eq : ns = lo ++ up
  lt : ∀ a ∈ lo, cmp (l.key a) key < 0
  ge : ∀ a ∈ up, 0 ≤ cmp (l.key a) key

/-- Ascending nodes split. -/
theorem exists_splits (h : IsComparator cmp)
    (hns : ns.Pairwise fun a b => cmp (l.key a) (l.key b) < 0) (key : κ) :
    ∃ lo up, Splits cmp l key ns lo up := by
  induction ns with
  | nil => exact ⟨[], [], rfl, by simp, by simp⟩
  | cons a ns ih =>
    obtain ⟨ha, hns⟩ := List.pairwise_cons.mp hns
    by_cases hlt : cmp (l.key a) key < 0
    · obtain ⟨lo, up, rfl, hlo, hup⟩ := ih hns
      exact ⟨a :: lo, up, rfl, List.forall_mem_cons.mpr ⟨hlt, hlo⟩, hup⟩
    · refine ⟨[], a :: ns, rfl, by simp, List.forall_mem_cons.mpr ⟨not_lt.mp hlt, fun b hb => ?_⟩⟩
      refine not_lt.mp fun hblt => hlt ?_
      exact h.lt_trans (ha b hb) hblt

/-! ## Walks

What `update` holds after a walk, for any way to split the nodes at a key. -/

/-- The last node on a level below the key, or the header. -/
def lastOn (l : SkipList κ υ) (lo : List ℕ) (i : ℕ) : ℕ := (l.onLevel i lo).getLast?.getD header

theorem getLast?_header (lo : List ℕ) (i : ℕ) :
    (header :: l.onLevel i lo).getLast? = some (l.lastOn lo i) := List.getLast?_cons

theorem onLevel_append (i : ℕ) : l.onLevel i (lo ++ up) = l.onLevel i lo ++ l.onLevel i up :=
  List.filter_append _ _

theorem onLevel_zero (ns : List ℕ) : l.onLevel 0 ns = ns :=
  List.filter_eq_self.mpr fun _ _ => decide_eq_true (Nat.zero_le _)

theorem mem_of_mem_onLevel {i a : ℕ} (h : a ∈ l.onLevel i ns) : a ∈ ns := List.mem_of_mem_filter h

theorem onLevel_mono {i j : ℕ} (hij : i ≤ j) {a : ℕ} (h : a ∈ l.onLevel j ns) :
    a ∈ l.onLevel i ns := by
  obtain ⟨hmem, hle⟩ := List.mem_filter.mp h
  exact List.mem_filter.mpr ⟨hmem, decide_eq_true (hij.trans (of_decide_eq_true hle))⟩

/-- A walk on one level passes the nodes below the key. -/
theorem walk_spec {i c : ℕ} {s t : List ℕ} {fuel : ℕ}
    (h : Follows (l.forward i) (some c) (c :: s ++ t)) (hs : ∀ a ∈ s, cmp (l.key a) key < 0)
    (ht : ∀ a ∈ t, 0 ≤ cmp (l.key a) key) (hfuel : s.length < fuel) :
    walk cmp l i key fuel c = some (s.getLast?.getD c) := by
  induction s generalizing c fuel with
  | nil =>
    obtain ⟨fuel, rfl⟩ : ∃ k, fuel = k + 1 := ⟨fuel - 1, by omega⟩
    have hnext : l.forward i c = t.head? := h.2.eq_head?
    rw [walk, hnext]
    cases t with
    | nil => rfl
    | cons a t => exact if_neg (not_lt.mpr (ht a List.mem_cons_self))
  | cons d s ih =>
    obtain ⟨fuel, rfl⟩ : ∃ k, fuel = k + 1 := ⟨fuel - 1, by omega⟩
    have hnext : l.forward i c = some d := h.2.1
    rw [walk, hnext, List.getLast?_cons]
    dsimp only
    rw [if_pos (hs d List.mem_cons_self)]
    rw [List.length_cons] at hfuel
    have hrest : Follows (l.forward i) (some d) (d :: s ++ t) := ⟨rfl, h.2.2⟩
    exact ih hrest (fun a ha => hs a (List.mem_cons_of_mem _ ha)) (by omega)

/-- A walk on one level from a node below the key ends at the last such node of the level. -/
theorem walk_lastOn (hinv : Inv cmp l ns) (hsplit : Splits cmp l key ns lo up) {i c fuel : ℕ}
    (hi : i ≤ l.maxLevel) (hc : c ∈ header :: l.onLevel i lo) (hfuel : ns.length < fuel) :
    walk cmp l i key fuel c = some (l.lastOn lo i) := by
  obtain ⟨p, q, hpq⟩ := List.append_of_mem hc
  have hchain := hinv.chain i hi
  rw [hsplit.eq, onLevel_append, ← List.cons_append, hpq, List.append_assoc] at hchain
  have hlast : q.getLast?.getD c = l.lastOn lo i := by
    have hboth := getLast?_header (l := l) lo i
    rw [hpq, List.getLast?_append, List.getLast?_cons, Option.some_or] at hboth
    exact Option.some.inj hboth
  have hqlo : ∀ a ∈ q, a ∈ lo := by
    intro a ha
    cases p with
    | nil =>
      obtain ⟨-, rfl⟩ := List.cons_eq_cons.mp hpq
      exact mem_of_mem_onLevel ha
    | cons d p =>
      have htail : l.onLevel i lo = p ++ c :: q := (List.cons_eq_cons.mp hpq).2
      exact mem_of_mem_onLevel (i := i)
        (htail ▸ List.mem_append_right _ (List.mem_cons_of_mem _ ha))
  have hlen : q.length ≤ ns.length := by
    have hle := congrArg List.length hpq
    have hfilter := List.length_filter_le (fun a => decide (i ≤ l.nodeLevel a)) lo
    rw [hsplit.eq, List.length_append]
    simp only [List.length_cons, List.length_append, onLevel] at hle
    omega
  rw [← hlast]
  refine walk_spec (s := q) (t := l.onLevel i up) ⟨rfl, hchain.after⟩ (fun a ha => ?_)
    (fun a ha => ?_) (by omega)
  · exact hsplit.lt a (hqlo a ha)
  · exact hsplit.ge a (mem_of_mem_onLevel ha)

/-- **A walk leaves each level at the last node below the key.** -/
theorem descend_spec (hinv : Inv cmp l ns) (hsplit : Splits cmp l key ns lo up) {fuel : ℕ}
    (hfuel : ns.length < fuel) {n c : ℕ} {update : ℕ → Option ℕ} (hn : n ≤ l.maxLevel + 1)
    (hc : c ∈ header :: l.onLevel (n - 1) lo) :
    descend cmp l key fuel n c update =
      some (if n = 0 then c else l.lastOn lo 0,
        fun i => if i < n then some (l.lastOn lo i) else update i) := by
  induction n generalizing c update with
  | zero => simp [descend]
  | succ n ih =>
    have hlast : l.lastOn lo n ∈ header :: l.onLevel (n - 1) lo := by
      have hmem := List.mem_of_getLast? (getLast?_header (l := l) lo n)
      rcases List.mem_cons.mp hmem with heq | hmem
      · exact List.mem_cons.mpr (.inl heq)
      · exact List.mem_cons_of_mem _ (onLevel_mono (Nat.sub_le n 1) hmem)
    rw [Nat.add_sub_cancel] at hc
    rw [descend, walk_lastOn hinv hsplit (by omega) hc hfuel]
    dsimp only
    rw [ih (by omega) hlast, if_neg (Nat.succ_ne_zero n)]
    refine congrArg some (Prod.ext ?_ (funext fun i => ?_))
    · dsimp only
      split
      · next hzero => rw [hzero]
      · rfl
    · dsimp only
      rcases Nat.lt_trichotomy i n with hlt | rfl | hgt
      · rw [if_pos hlt, if_pos (Nat.lt_succ_of_lt hlt)]
      · rw [if_neg (Nat.lt_irrefl i), if_pos (Nat.lt_succ_self i), Function.update_self]
      · rw [if_neg (by omega), if_neg (by omega), Function.update_of_ne (Nat.ne_of_gt hgt)]

/-! ## Insertion -/

/-- The current level and the seed may move. -/
theorem Inv.relevel (hinv : Inv cmp l ns) {level : ℕ} (seed : UInt32) (hle : l.level ≤ level)
    (hmax : level ≤ l.maxLevel) : Inv cmp { l with level := level, seed := seed } ns :=
  { hinv with
    nodeLevel_le := fun a ha => (hinv.nodeLevel_le a ha).trans hle
    level_le := hmax }

theorem randomLevel_le (l : SkipList κ υ) : l.randomLevel.1 ≤ l.maxLevel := by
  rw [randomLevel]
  dsimp only
  split_ifs <;> omega

theorem raise_fst (l : SkipList κ υ) (k : ℕ) (update : ℕ → Option ℕ) :
    (l.raise k update).1 = { l with level := max l.level k } := by
  rw [raise]
  split
  · next hlt => rw [max_eq_right hlt.le]
  · next hge => rw [max_eq_left (not_lt.mp hge)]

/-- Nodes on a level above the current one: none, so that level is left at the header. -/
theorem Inv.lastOn_of_lt (hinv : Inv cmp l ns) (hlo : ∀ a ∈ lo, a ∈ ns) {i : ℕ}
    (hi : l.level < i) : l.lastOn lo i = header := by
  have hempty : l.onLevel i lo = [] := by
    refine List.filter_eq_nil_iff.mpr fun a ha hle => ?_
    have hlevel := hinv.nodeLevel_le a (hlo a ha)
    have hia := of_decide_eq_true hle
    omega
  rw [lastOn, hempty]
  rfl

/-- After raising, `update` has the last node of each level of the new node. -/
theorem Inv.raise_snd (hinv : Inv cmp l ns) (hlo : ∀ a ∈ lo, a ∈ ns) {update : ℕ → Option ℕ}
    (hupdate : ∀ i ≤ l.level, update i = some (l.lastOn lo i)) (k : ℕ) :
    ∀ i ≤ k, (l.raise k update).2 i = some (l.lastOn lo i) := by
  intro i hik
  rw [raise]
  split
  · dsimp only
    split
    · next hrange => rw [hinv.lastOn_of_lt hlo hrange.1]
    · exact hupdate i (by omega)
  · exact hupdate i (by omega)

/-- A new node is not yet on any level. -/
theorem Inv.createNode (hinv : Inv cmp l ns) (lvl : ℕ) (key : κ) (value : Option υ) :
    Inv cmp (l.createNode lvl key value) ns := by
  have hne : ∀ a ∈ header :: ns, a ≠ l.fresh := fun a ha => Nat.ne_of_lt (hinv.lt_fresh a ha)
  have hlevel : ∀ a ∈ ns, (l.createNode lvl key value).nodeLevel a = l.nodeLevel a := fun a ha =>
    Function.update_of_ne (hne a (List.mem_cons_of_mem _ ha)) _ _
  have hkey : ∀ a ∈ ns, (l.createNode lvl key value).key a = l.key a := fun a ha =>
    Function.update_of_ne (hne a (List.mem_cons_of_mem _ ha)) _ _
  refine ⟨fun i hi => ?_, ?_, hinv.nodup, fun a ha => ?_, hinv.level_le, fun a ha => ?_,
    hinv.size_eq⟩
  · have honLevel : (l.createNode lvl key value).onLevel i ns = l.onLevel i ns :=
      List.filter_congr fun a ha => by rw [hlevel a ha]
    rw [honLevel]
    refine (hinv.chain i hi).congr fun a ha => if_neg fun hcell => ?_
    refine hne a ?_ hcell.1
    rcases List.mem_cons.mp ha with rfl | ha
    · exact List.mem_cons_self
    · exact List.mem_cons_of_mem _ (mem_of_mem_onLevel ha)
  · refine hinv.ascending.imp_of_mem fun {a b} ha hb hlt => ?_
    rw [hkey a ha, hkey b hb]
    exact hlt
  · rw [hlevel a ha]
    exact hinv.nodeLevel_le a ha
  · exact Nat.lt_succ_of_lt (hinv.lt_fresh a ha)

/-- **The splice of an insertion**, level by level. -/
theorem linkLevels_spec {update : ℕ → Option ℕ} {x n : ℕ} {u : ℕ → ℕ}
    (hupdate : ∀ i < n, update i = some (u i)) :
    linkLevels update x l n = some { l with
      forward := fun i =>
        if i < n then
          Function.update (Function.update (l.forward i) x (l.forward i (u i))) (u i) (some x)
        else l.forward i } := by
  induction n with
  | zero => rfl
  | succ n ih =>
    rw [linkLevels, ih fun i hi => hupdate i (Nat.lt_succ_of_lt hi), hupdate n n.lt_succ_self]
    refine congrArg some ?_
    simp only [setForward]
    simp only [Nat.lt_irrefl, if_false, SkipList.mk.injEq, true_and, and_true,
      Function.update_self, Function.update_idem]
    funext i
    rcases Nat.lt_trichotomy i n with hlt | rfl | hgt
    · rw [Function.update_of_ne (Nat.ne_of_lt hlt), if_pos hlt, if_pos (Nat.lt_succ_of_lt hlt)]
    · rw [Function.update_self, if_pos (Nat.lt_succ_self i)]
    · rw [Function.update_of_ne (Nat.ne_of_gt hgt), if_neg (by omega), if_neg (by omega)]

theorem exists_init (l : SkipList κ υ) (lo : List ℕ) (i : ℕ) :
    ∃ init, header :: l.onLevel i lo = init ++ [l.lastOn lo i] :=
  List.getLast?_eq_some_iff.mp (getLast?_header lo i)

theorem Inv.nodup_onLevel (hinv : Inv cmp l ns) (i : ℕ) : (header :: l.onLevel i ns).Nodup :=
  hinv.nodup.sublist (List.filter_sublist.cons_cons header)

theorem onLevel_cons (i x : ℕ) : l.onLevel i (x :: ns) =
    if i ≤ l.nodeLevel x then x :: l.onLevel i ns else l.onLevel i ns := by
  simp only [onLevel]
  rw [List.filter_cons]
  simp only [decide_eq_true_eq]

/-- The spliced forward pointers. -/
def spliced (l : SkipList κ υ) (lo : List ℕ) (x : ℕ) (i : ℕ) : ℕ → Option ℕ :=
  if i < l.nodeLevel x + 1 then
    Function.update (Function.update (l.forward i) x (l.forward i (l.lastOn lo i)))
      (l.lastOn lo i) (some x)
  else l.forward i

/-- **A new node between the two parts**, on as many levels as it has. -/
theorem Inv.link (hinv : Inv cmp l (lo ++ up)) {x : ℕ} (hx : x ∉ header :: (lo ++ up))
    (hfresh : x < l.fresh) (hlevel : l.nodeLevel x ≤ l.level)
    (hlo : ∀ a ∈ lo, cmp (l.key a) (l.key x) < 0) (hup : ∀ a ∈ up, cmp (l.key x) (l.key a) < 0) :
    Inv cmp { l with forward := l.spliced lo x, size := int32 (l.size + 1) } (lo ++ x :: up) := by
  have hperm : (header :: (lo ++ x :: up)).Perm (x :: header :: (lo ++ up)) :=
    (List.perm_middle.cons header).trans (List.Perm.swap _ _ _)
  obtain ⟨hasclo, hascup, hasc⟩ := List.pairwise_append.mp hinv.ascending
  refine ⟨fun i hi => ?_, ?_, ?_, fun a ha => ?_, hinv.level_le, fun a ha => ?_, ?_⟩
  · have hchain := hinv.chain i hi
    have hnodup := hinv.nodup_onLevel i
    obtain ⟨init, hinit⟩ := exists_init l lo i
    show Follows (l.spliced lo x i) (some header) (header :: l.onLevel i (lo ++ x :: up))
    rw [onLevel_append, ← List.cons_append, hinit, List.append_assoc] at hchain hnodup
    rw [onLevel_append, onLevel_cons, ← List.cons_append, hinit, List.append_assoc]
    rw [spliced]
    by_cases hle : i ≤ l.nodeLevel x
    · rw [if_pos hle, if_pos (Nat.lt_succ_of_le hle)]
      refine hchain.insertAfter hnodup fun hmem => hx ?_
      have hmem : x ∈ init ++ [l.lastOn lo i] ++ l.onLevel i up := by simpa using hmem
      rw [← hinit, List.cons_append, ← onLevel_append] at hmem
      rcases List.mem_cons.mp hmem with rfl | hmem
      · exact List.mem_cons_self
      · exact List.mem_cons_of_mem _ (mem_of_mem_onLevel hmem)
    · rw [if_neg hle, if_neg (by omega)]
      exact hchain
  · refine List.pairwise_append.mpr ⟨hasclo, List.pairwise_cons.mpr ⟨hup, hascup⟩, ?_⟩
    exact fun a ha => List.forall_mem_cons.mpr ⟨hlo a ha, hasc a ha⟩
  · exact hperm.nodup_iff.mpr (List.nodup_cons.mpr ⟨hx, hinv.nodup⟩)
  · rcases List.mem_cons.mp (List.perm_middle.mem_iff.mp ha) with rfl | ha
    · exact hlevel
    · exact hinv.nodeLevel_le a ha
  · rcases List.mem_cons.mp (hperm.mem_iff.mp ha) with rfl | ha
    · exact hfresh
    · exact hinv.lt_fresh a ha
  · show int32 (l.size + 1) = int32 (lo ++ x :: up).length
    rw [hinv.size_eq, int32_int32_add, List.perm_middle.length_eq, List.length_cons, Nat.cast_succ]

/-- The payloads of the nodes, apart from a new node. -/
structure Extends (l l' : SkipList κ υ) (x : ℕ) (key : κ) (value : Option υ) : Prop where
  key_eq : l'.key = Function.update l.key x key
  value_eq : l'.value = Function.update l.value x value

/-- The new node is created, and spliced in between the two parts. -/
theorem Inv.linkCreated (h : IsComparator cmp) (hinv : Inv cmp l ns)
    (hsplit : Splits cmp l key ns lo up) (habsent : ∀ a ∈ up, cmp (l.key a) key ≠ 0) {k : ℕ}
    (hk : k ≤ l.level) {update : ℕ → Option ℕ}
    (hupdate : ∀ i ≤ k, update i = some (l.lastOn lo i)) (value : Option υ) :
    ∃ l', linkLevels update l.fresh (l.createNode k key value) (k + 1) = some l' ∧
      Inv cmp { l' with size := int32 (l'.size + 1) } (lo ++ l.fresh :: up) ∧
      Extends l l' l.fresh key value ∧ l'.maxLevel = l.maxLevel := by
  obtain ⟨rfl, hlt, hge⟩ := hsplit
  have hcreated := hinv.createNode k key value
  have hne : ∀ a ∈ header :: (lo ++ up), a ≠ l.fresh := fun a ha =>
    Nat.ne_of_lt (hinv.lt_fresh a ha)
  have hfresh : l.fresh ∉ header :: (lo ++ up) := fun hmem => hne _ hmem rfl
  have hlevel : (l.createNode k key value).nodeLevel l.fresh = k := Function.update_self _ _ _
  have hkeyx : (l.createNode k key value).key l.fresh = key := Function.update_self _ _ _
  have hkey : ∀ a ∈ lo ++ up, (l.createNode k key value).key a = l.key a := fun a ha =>
    Function.update_of_ne (hne a (List.mem_cons_of_mem _ ha)) _ _
  have hlast : ∀ i, (l.createNode k key value).lastOn lo i = l.lastOn lo i := fun i => by
    have honLevel : (l.createNode k key value).onLevel i lo = l.onLevel i lo :=
      List.filter_congr fun a ha => congrArg (fun n => decide (i ≤ n)) (Function.update_of_ne
        (hne a (List.mem_cons_of_mem _ (List.mem_append_left up ha))) _ _)
    rw [lastOn, honLevel, lastOn]
  have hupdate' : ∀ i < k + 1, update i = some ((l.createNode k key value).lastOn lo i) :=
    fun i hi => (hupdate i (Nat.le_of_lt_succ hi)).trans (congrArg some (hlast i).symm)
  have hspliced : (l.createNode k key value).spliced lo l.fresh = fun i =>
      if i < k + 1 then Function.update (Function.update ((l.createNode k key value).forward i)
        l.fresh ((l.createNode k key value).forward i ((l.createNode k key value).lastOn lo i)))
        ((l.createNode k key value).lastOn lo i) (some l.fresh)
      else (l.createNode k key value).forward i := by
    funext i
    rw [spliced, hlevel]
  refine ⟨_, linkLevels_spec hupdate', ?_, ⟨rfl, rfl⟩, rfl⟩
  rw [← hspliced]
  refine hcreated.link hfresh (Nat.lt_succ_self _) ?_ (fun a ha => ?_) fun a ha => ?_
  · rw [hlevel]
    exact hk
  · rw [hkeyx, hkey a (List.mem_append_left _ ha)]
    exact hlt a ha
  · rw [hkeyx, hkey a (List.mem_append_right _ ha)]
    have hsign := h.neg_iff key (l.key a)
    have hnonneg := hge a ha
    have hnonzero := habsent a ha
    omega

/-- **An insertion of an absent key.** The current level has been raised and the seed has moved
whether or not there is a node to be had. -/
theorem Inv.insertNew (h : IsComparator cmp) (hinv : Inv cmp l ns)
    (hsplit : Splits cmp l key ns lo up) (habsent : ∀ a ∈ up, cmp (l.key a) key ≠ 0)
    {update : ℕ → Option ℕ} (hupdate : ∀ i ≤ l.level, update i = some (l.lastOn lo i))
    (value : Option υ) (nodes : Allocator) :
    (nodes.alloc.1 = true → ∃ l', l.insertNew key value update nodes =
        some (.success, l', nodes.alloc.2) ∧ Inv cmp l' (lo ++ l.fresh :: up) ∧
        Extends l l' l.fresh key value ∧ l'.maxLevel = l.maxLevel) ∧
      (nodes.alloc.1 = false → ∃ l', l.insertNew key value update nodes =
        some (.errorMemory, l', nodes.alloc.2) ∧ Inv cmp l' ns ∧ l'.key = l.key ∧
        l'.value = l.value ∧ l'.maxLevel = l.maxLevel) := by
  have hsub : ∀ a ∈ lo, a ∈ ns := fun a ha => hsplit.eq ▸ List.mem_append_left _ ha
  obtain ⟨k, hk⟩ : ∃ k, l.randomLevel.1 = k := ⟨_, rfl⟩
  have hkmax : k ≤ l.maxLevel := hk ▸ randomLevel_le l
  have hraised := hinv.relevel (nextRandom l.seed) (le_max_left l.level k)
    (max_le hinv.level_le hkmax)
  have hfst : (l.randomLevel.2.raise k update).1 =
      { l with level := max l.level k, seed := nextRandom l.seed } := raise_fst _ _ _
  have hsnd : ∀ i ≤ k, (l.randomLevel.2.raise k update).2 i = some (l.lastOn lo i) :=
    (hinv.relevel (nextRandom l.seed) (Nat.le_refl _) hinv.level_le).raise_snd hsub hupdate k
  constructor
  · intro halloc
    obtain ⟨l', hlink, hinv', hextends, hmax⟩ := hraised.linkCreated h
      ⟨hsplit.eq, hsplit.lt, hsplit.ge⟩ habsent (le_max_right l.level k) hsnd value
    refine ⟨_, ?_, hinv', ⟨hextends.key_eq, hextends.value_eq⟩, hmax⟩
    rw [SkipList.insertNew]
    dsimp only
    rw [hk, halloc, hfst, if_pos rfl, hlink]
    rfl
  · intro halloc
    refine ⟨_, ?_, hraised, rfl, rfl, rfl⟩
    rw [SkipList.insertNew]
    dsimp only
    rw [hk, halloc, hfst]
    rfl

/-! ## Deletion -/

/-- **The splice of a deletion**, level by level up to the last level of the node. -/
theorem unlinkLevels_spec {update : ℕ → Option ℕ} {u : ℕ → ℕ} {c k left i : ℕ}
    (hupdate : ∀ j, i ≤ j → j < i + left → update j = some (u j))
    (hon : ∀ j, i ≤ j → j ≤ k → l.forward j (u j) = some c)
    (hoff : ∀ j, k < j → j < i + left → l.forward j (u j) ≠ some c) (hk : k < i + left) :
    unlinkLevels update c left i l = some { l with
      forward := fun j =>
        if i ≤ j ∧ j ≤ k then Function.update (l.forward j) (u j) (l.forward j c)
        else l.forward j } := by
  induction left generalizing i l with
  | zero =>
    have hforward : (fun j => if i ≤ j ∧ j ≤ k then
        Function.update (l.forward j) (u j) (l.forward j c) else l.forward j) = l.forward :=
      funext fun j => if_neg (by omega)
    rw [hforward]
    rfl
  | succ left ih =>
    rw [unlinkLevels, hupdate i (Nat.le_refl i) (by omega)]
    dsimp only
    by_cases hik : i ≤ k
    · have hother : ∀ j, j ≠ i →
          (l.setForward i (u i) (l.forward i c)).forward j = l.forward j := fun j hj =>
        Function.update_of_ne hj _ _
      rw [if_neg (not_not.mpr (hon i (Nat.le_refl i) hik)),
        ih (fun j hj hlt => hupdate j (by omega) (by omega))
          (fun j hj hle => by rw [hother j (by omega)]; exact hon j (by omega) hle)
          (fun j hj hlt => by rw [hother j (by omega)]; exact hoff j hj (by omega)) (by omega)]
      refine congrArg (fun f => some { l with forward := f }) (funext fun j => ?_)
      rcases Nat.lt_trichotomy j i with hlt | rfl | hgt
      · rw [if_neg (by omega), if_neg (by omega), hother j (by omega)]
      · rw [if_neg (by omega), if_pos ⟨Nat.le_refl j, hik⟩]
        exact Function.update_self _ _ _
      · rw [hother j (by omega)]
        exact if_congr ⟨fun hj => ⟨by omega, hj.2⟩, fun hj => ⟨by omega, hj.2⟩⟩ rfl rfl
    · rw [if_pos (hoff i (by omega) (by omega))]
      refine congrArg (fun f => some { l with forward := f }) (funext fun j => ?_)
      rw [if_neg (by omega)]

/-- The forward pointers after a node between the two parts is taken out. -/
theorem Inv.unlink {c : ℕ} (hinv : Inv cmp l (lo ++ c :: up)) :
    Inv cmp { l with
      forward := fun i =>
        if i ≤ l.nodeLevel c then Function.update (l.forward i) (l.lastOn lo i) (l.forward i c)
        else l.forward i
      size := int32 (l.size - 1) } (lo ++ up) := by
  have hsub : (lo ++ up).Sublist (lo ++ c :: up) := (List.sublist_cons_self c up).append_left lo
  refine ⟨fun i hi => ?_, hinv.ascending.sublist hsub, hinv.nodup.sublist (hsub.cons_cons header),
    fun a ha => hinv.nodeLevel_le a (hsub.subset ha), hinv.level_le,
    fun a ha => hinv.lt_fresh a ((hsub.cons_cons header).subset ha), ?_⟩
  · have hchain := hinv.chain i hi
    have hnodup := hinv.nodup_onLevel i
    obtain ⟨init, hinit⟩ := exists_init l lo i
    show Follows (if i ≤ l.nodeLevel c then
        Function.update (l.forward i) (l.lastOn lo i) (l.forward i c) else l.forward i)
      (some header) (header :: l.onLevel i (lo ++ up))
    rw [onLevel_append, onLevel_cons, ← List.cons_append, hinit, List.append_assoc]
      at hchain hnodup
    rw [onLevel_append, ← List.cons_append, hinit, List.append_assoc]
    by_cases hle : i ≤ l.nodeLevel c
    · rw [if_pos hle] at hchain hnodup ⊢
      exact hchain.eraseAfter hnodup
    · rw [if_neg hle] at hchain ⊢
      exact hchain
  · show int32 (l.size - 1) = int32 (lo ++ up).length
    rw [hinv.size_eq, int32_int32_sub, List.perm_middle.length_eq, List.length_cons, Nat.cast_succ,
      add_sub_cancel_right]

/-- The levels above the lowered one are empty. -/
theorem lowerLevel_spec (level : ℕ) :
    lowerLevel l level ≤ level ∧
      ∀ i, lowerLevel l level < i → i ≤ level → l.forward i header = none := by
  induction level with
  | zero => exact ⟨Nat.le_refl 0, fun i hlt hle => by omega⟩
  | succ level ih =>
    rw [lowerLevel]
    split
    · next hnone =>
      refine ⟨ih.1.trans (Nat.le_succ level), fun i hlt hle => ?_⟩
      rcases Nat.le_succ_iff.mp hle with hle | rfl
      · exact ih.2 i hlt hle
      · exact hnone
    · exact ⟨Nat.le_refl _, fun i hlt hle => by omega⟩

/-- The current level may go down past empty levels. -/
theorem Inv.lower (hinv : Inv cmp l ns) {level : ℕ} (hle : level ≤ l.level)
    (hempty : ∀ i, level < i → i ≤ l.level → l.forward i header = none) :
    Inv cmp { l with level := level } ns := by
  refine { hinv with nodeLevel_le := fun a ha => ?_, level_le := hle.trans hinv.level_le }
  by_contra hlt
  have hlevel := hinv.nodeLevel_le a ha
  have hnone := hempty (l.nodeLevel a) (not_le.mp hlt) hlevel
  have hchain : l.forward (l.nodeLevel a) header = (l.onLevel (l.nodeLevel a) ns).head? :=
    (hinv.chain (l.nodeLevel a) (hlevel.trans hinv.level_le)).2.eq_head?
  rw [hnone] at hchain
  have hmem : a ∈ l.onLevel (l.nodeLevel a) ns :=
    List.mem_filter.mpr ⟨ha, decide_eq_true (Nat.le_refl _)⟩
  rw [List.head?_eq_none_iff.mp hchain.symm] at hmem
  exact absurd hmem List.not_mem_nil

/-- What comes after the last node below the key, on each level. -/
theorem Inv.forward_lastOn (hinv : Inv cmp l (lo ++ up)) {i : ℕ} (hi : i ≤ l.maxLevel) :
    l.forward i (l.lastOn lo i) = (l.onLevel i up).head? := by
  have hchain := hinv.chain i hi
  obtain ⟨init, hinit⟩ := exists_init l lo i
  rw [onLevel_append, ← List.cons_append, hinit, List.append_assoc] at hchain
  exact hchain.after.eq_head?

/-- **A deletion of a node** that is the first of the second part. -/
theorem Inv.delete {c : ℕ} (hinv : Inv cmp l (lo ++ c :: up)) {update : ℕ → Option ℕ}
    (hupdate : ∀ i ≤ l.level, update i = some (l.lastOn lo i)) :
    ∃ l₁, unlinkLevels update c (l.level + 1) 0 l = some l₁ ∧
      Inv cmp { l₁ with size := int32 (l₁.size - 1), level := lowerLevel l₁ l₁.level } (lo ++ up) ∧
      l₁.key = l.key ∧ l₁.value = l.value ∧ l₁.maxLevel = l.maxLevel := by
  have hlevel := hinv.nodeLevel_le c (List.mem_append_right _ List.mem_cons_self)
  have hc : c ∉ up := by
    have hnodup := (List.nodup_cons.mp hinv.nodup).2
    exact (List.nodup_cons.mp (List.nodup_append.mp hnodup).2.1).1
  have hnext : ∀ i ≤ l.maxLevel, l.forward i (l.lastOn lo i) =
      if i ≤ l.nodeLevel c then some c else (l.onLevel i up).head? := by
    intro i hi
    rw [hinv.forward_lastOn hi, onLevel_cons]
    split <;> rfl
  have hunlink := unlinkLevels_spec (l := l) (u := l.lastOn lo) (c := c) (k := l.nodeLevel c)
    (i := 0) (fun j _ hlt => hupdate j (by omega))
    (fun j _ hle => by rw [hnext j (by have hmax := hinv.level_le; omega), if_pos hle])
    (fun j hlt hj heq => ?_) (show l.nodeLevel c < 0 + (l.level + 1) by omega)
  · simp only [Nat.zero_le, true_and] at hunlink
    exact ⟨_, hunlink, hinv.unlink.lower (lowerLevel_spec _).1 (lowerLevel_spec _).2,
      rfl, rfl, rfl⟩
  · rw [hnext j (by have hmax := hinv.level_le; omega), if_neg (by omega)] at heq
    exact hc (mem_of_mem_onLevel (List.mem_of_head? heq))

end SkipList

end OvaLib
