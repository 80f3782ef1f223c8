import OvaLib.Foundation.Forest
import OvaLib.Heap.Fibonacci

/-!
# The shape of a Fibonacci heap

`Shape m R nodes` says that the pointer fields hold the forest `R`: every list of `R` is a ring,
parent fields name the owner of the ring, child fields its head, and degrees its length. `MarkThin`
is the condition behind the bound on degrees: the `i`-th child of a node has lost at most one child
since it was linked, and is marked if it has.

## The forest

`R` assigns to every owner the list of nodes that it owns: `R none` are the roots and `R (some a)`
the children of `a`. As a list has a head and a ring has not, the child field and `h->min` say where
it begins. The ring of a list is then read from its head by right fields, and backwards by left
fields. That each node is on one list, and that following owners ends at a root, makes it a forest;
this part, and how lists change when nodes move between them, is from the library on rings.

## Linking and cutting

Linking takes a node from the roots to the end of the list of another root, cutting takes a node
from a list and puts it second among the roots. Either is described by what it does to `R`, and the
assignments are checked against the clauses of `Shape` one after the other. The child field changes
when a list of children gets its first node or loses its head.

`cascading_cut` goes on to the parent, so its invariant is that of a forest in which one node may
have lost a child too many. The recursion ends at an unmarked node or at a root, and goes through
marked nodes only, each of which it unmarks. It is an induction on their number.

## Main results

* `fibNodeLink_shape` — linking two roots of the same degree
* `cut_shape`, `cascadingCut_spec` — cutting, and what follows it
* `Shape.degree_lt` — no node reaches the bound of `consolidate`
-/

namespace OvaLib

namespace Heap

open Foundation

namespace FibNodes

variable {m : FibNodes} {R : Option Addr → List Addr} {nodes : Finset Addr}

/-! ## Splices -/

theorem spliceOut_unlinked (m : FibNodes) (x : Addr) :
    Unlinked m.toDll (m.spliceOut x).toDll x := by
  have hx : (m.setRight (m.left x) (m.right x)).right x = m.right x := by
    by_cases hl : x = m.left x
    · show Function.update m.right (m.left x) (m.right x) x = _
      rw [← hl, Function.update_self]
    · exact Function.update_of_ne hl _ _
  have hleft : (m.spliceOut x).left = Function.update m.left (m.right x) (m.left x) := by
    show Function.update m.left ((m.setRight (m.left x) (m.right x)).right x) (m.left x) = _
    rw [hx]
  refine ⟨Function.update_self _ _ _, ?_, fun a ha => Function.update_of_ne ha _ _, fun a ha => ?_⟩
  · rw [hleft, Function.update_self]
  · rw [hleft, Function.update_of_ne ha]

theorem spliceIn_inserted {c x : Addr} (hxc : x ≠ c) (hx : m.right c ≠ x) :
    Inserted m.toDll (m.spliceIn c x).toDll c x := by
  have hc : (Function.update m.right x (m.right c)) c = m.right c :=
    Function.update_of_ne hxc.symm _ _
  have hright : (m.spliceIn c x).right =
      Function.update (Function.update m.right x (m.right c)) c x := rfl
  have hleft : (m.spliceIn c x).left =
      Function.update (Function.update m.left x c) (m.right c) x := by
    show Function.update (Function.update m.left x c)
      ((Function.update m.right x (m.right c)) c) x = _
    rw [hc]
  refine ⟨?_, ?_, ?_, ?_, fun a hac hax => ?_, fun a hac hax => ?_⟩
  · rw [hright, Function.update_self]
  · rw [hleft, Function.update_of_ne hx.symm, Function.update_self]
  · rw [hright, Function.update_of_ne hxc, Function.update_self]
  · rw [hleft, Function.update_self]
  · rw [hright, Function.update_of_ne hac, Function.update_of_ne hax]
  · rw [hleft, Function.update_of_ne hac, Function.update_of_ne hax]

/-! ## The invariant -/

/-- **The pointer fields hold the forest.** Every field of every node is accounted for: left and
right by the rings, parent, child and degree by the lists. Only the mark is free. -/
structure Shape (m : FibNodes) (R : Option Addr → List Addr) (nodes : Finset Addr) : Prop where
  forest : IsForest R nodes
  /-- Left and right fields, for the roots and for the children of every node. -/
  ring : ∀ o, IsRing m.toDll (R o)
  parent : ∀ {o b}, b ∈ R o → m.parent b = o
  /-- The child field is the head of the list, or `NULL`. -/
  child : ∀ a ∈ nodes, m.child a = (R (some a)).head?
  degree : ∀ a ∈ nodes, m.degree a = (R (some a)).length

/-- The `i`-th child of a node has lost at most one child, or up to `slack` more. When it was linked
it had the degree of its parent, which was at least `i`; so its degree bounds what it has lost. The
slack is for the node that a cut has just taken a child from. -/
def MarkThin (m : FibNodes) (R : Option Addr → List Addr) (slack : Addr → ℕ) : Prop :=
  ∀ a i b, (R (some a))[i]? = some b →
    i ≤ m.degree b + (if m.mark b = true then 1 else 0) + slack b

theorem Shape.rings (h : Shape m R nodes) : Rings m.toDll R := ⟨h.forest.toApart, h.ring⟩

theorem Shape.thin (h : Shape m R nodes) (hthin : MarkThin m R fun _ => 0) : Thin R := by
  intro a i b hi
  have hb := h.forest.mem (List.mem_of_getElem? hi)
  have hle : i ≤ m.degree b + (if m.mark b = true then 1 else 0) := hthin a i b hi
  rw [h.degree b hb] at hle
  split_ifs at hle <;> omega

/-- **No node reaches the bound** of `consolidate`. A node of degree `d` has a subtree of at least
as many nodes as the Fibonacci number of `d + 2`, and there are at most `INT_MAX` nodes. -/
theorem Shape.degree_lt (h : Shape m R nodes) (hthin : MarkThin m R fun _ => 0)
    (hcard : nodes.card ≤ intMax) {a : Addr} (ha : a ∈ nodes) : m.degree a < maxDegree := by
  have hfib := h.forest.fib_le_card (h.thin hthin) ha
  rw [h.degree a ha]
  by_contra hge
  have hmono : Nat.fib (maxDegree + 2) ≤ Nat.fib ((R (some a)).length + 2) :=
    Nat.fib_mono (by omega)
  have hval : intMax < Nat.fib (maxDegree + 2) := by norm_num [maxDegree, intMax]
  omega

/-! ## Linking

The new child comes last, so that its index is the degree its parent had. This is what the bound on
degrees is about. -/

section

variable (m) (x y : Addr)

theorem fibNodeLink_parent :
    (m.fibNodeLink y x).parent = Function.update m.parent y (some x) := by
  rw [fibNodeLink]
  cases hc : m.child x <;> simp only [spliceOut, setLeft, setRight, setParent, setChild, setDegree,
    setMark, hc]

theorem fibNodeLink_child : (m.fibNodeLink y x).child =
    Function.update m.child x (some ((m.child x).getD y)) := by
  rw [fibNodeLink]
  cases hc : m.child x with
  | none => simp only [spliceOut, setLeft, setRight, setParent, setChild, setDegree, setMark, hc,
      Option.getD_none]
  | some c =>
    rw [Option.getD_some, ← hc, Function.update_eq_self]
    simp only [spliceOut, setLeft, setRight, setParent, setDegree, setMark, hc]

theorem fibNodeLink_degree :
    (m.fibNodeLink y x).degree = Function.update m.degree x (m.degree x + 1) := by
  rw [fibNodeLink]
  cases hc : m.child x <;> simp only [spliceOut, setLeft, setRight, setParent, setChild, setDegree,
    setMark, hc]

theorem fibNodeLink_mark : (m.fibNodeLink y x).mark = Function.update m.mark y false := by
  rw [fibNodeLink]
  cases hc : m.child x <;> simp only [spliceOut, setLeft, setRight, setParent, setChild, setDegree,
    setMark, hc]

/-- The first child makes a ring of its own. -/
theorem fibNodeLink_looped (hc : m.child x = none) :
    Looped (m.spliceOut y).toDll (m.fibNodeLink y x).toDll y := by
  obtain ⟨s, hs⟩ : ∃ s, s = m.spliceOut y := ⟨_, rfl⟩
  have hchild : s.child x = none := by rw [hs, ← hc]; rfl
  have hdll : (m.fibNodeLink y x).toDll = (s.setRight y y).toDll.setLeft y
      ((s.setRight y y).right y) := by
    rw [fibNodeLink]
    rw [← hs]
    simp only [setLeft, setRight, setParent, setChild, setDegree, setMark, hchild]
  rw [hdll, ← hs]
  have hy : (s.setRight y y).right y = y := Function.update_self _ _ _
  exact ⟨hy, (Function.update_self _ _ _).trans hy, fun a ha => Function.update_of_ne ha _ _,
    fun a ha => Function.update_of_ne ha _ _⟩

/-- A further child goes before the first one. -/
theorem fibNodeLink_inserted {c : Addr} (hc : m.child x = some c) (hcy : c ≠ y)
    (hleft : (m.spliceOut y).left c ≠ y)
    (hright : (m.spliceOut y).right ((m.spliceOut y).left c) = c) :
    Inserted (m.spliceOut y).toDll (m.fibNodeLink y x).toDll ((m.spliceOut y).left c) y := by
  obtain ⟨s, hs⟩ : ∃ s, s = m.spliceOut y := ⟨_, rfl⟩
  have hchild : s.child x = some c := by rw [hs, ← hc]; rfl
  rw [← hs] at hleft hright ⊢
  have hl₁ : Function.update s.left y ((s.setRight y y).right y) c = s.left c :=
    Function.update_of_ne hcy _ _
  have hl₂ : Function.update (Function.update s.left y ((s.setRight y y).right y)) y (s.left c) c =
      s.left c := by
    rw [Function.update_of_ne hcy, hl₁]
  have hR : (m.fibNodeLink y x).right =
      Function.update (Function.update (Function.update s.right y y) y c) (s.left c) y := by
    rw [fibNodeLink]
    rw [← hs]
    simp only [setLeft, setRight, setParent, setDegree, setMark, hchild, Dll.setLeft_left,
      Dll.setLeft_right, Dll.setRight_right, Dll.setRight_left]
    rw [Function.update_of_ne hcy, Function.update_of_ne hcy]
  have hL : (m.fibNodeLink y x).left = Function.update (Function.update (Function.update s.left y
      ((s.setRight y y).right y)) y (s.left c)) c y := by
    rw [fibNodeLink]
    rw [← hs]
    simp only [setLeft, setRight, setParent, setDegree, setMark, hchild, Dll.setLeft_left,
      Dll.setRight_right, Dll.setRight_left]
    rw [Function.update_of_ne hcy]
  refine ⟨?_, ?_, ?_, ?_, fun a ha hay => ?_, fun a ha hay => ?_⟩
  · rw [hR, Function.update_self]
  · rw [hL, Function.update_of_ne hcy.symm, Function.update_self]
  · rw [hR, Function.update_of_ne hleft.symm, Function.update_self, hright]
  · rw [hright, hL, Function.update_self]
  · rw [hR, Function.update_of_ne ha, Function.update_of_ne hay, Function.update_of_ne hay]
  · rw [hright] at ha
    rw [hL, Function.update_of_ne ha, Function.update_of_ne hay, Function.update_of_ne hay]

end

/-- The forest after `y` has gone under `x`. It becomes the last child, as the ring is entered
before its head. -/
def linked (R : Option Addr → List Addr) (y x : Addr) : Option Addr → List Addr :=
  Function.update (Function.update R none ((R none).erase y)) (some x) (R (some x) ++ [y])

theorem linked_none (R : Option Addr → List Addr) (y x : Addr) :
    linked R y x none = (R none).erase y := by
  rw [linked, Function.update_of_ne (by simp), Function.update_self]

theorem linked_self (R : Option Addr → List Addr) (y x : Addr) :
    linked R y x (some x) = R (some x) ++ [y] :=
  Function.update_self _ _ _

theorem linked_of_ne (R : Option Addr → List Addr) {y x a : Addr} (ha : a ≠ x) :
    linked R y x (some a) = R (some a) := by
  rw [linked, Function.update_of_ne (by simpa using ha), Function.update_of_ne (by simp)]

/-- **`fib_node_link`** of two roots. The two splices, out of one ring and into another, are from
the library; what is shown here is that the other fields fit the new forest. -/
theorem fibNodeLink_shape (h : Shape m R nodes) {x y : Addr} (hx : x ∈ R none) (hy : y ∈ R none)
    (hxy : x ≠ y) : Shape (m.fibNodeLink y x) (linked R y x) nodes := by
  have hxnodes := h.forest.mem hx
  have hcut : Rings (m.spliceOut y).toDll (Function.update R none ((R none).erase y)) :=
    h.rings.unlink hy (spliceOut_unlinked m y)
  have hlist : Function.update R none ((R none).erase y) (some x) = R (some x) :=
    Function.update_of_ne (by simp) _ _
  have hlimbo : ∀ o, y ∉ Function.update R none ((R none).erase y) o := by
    intro o hmem
    cases o with
    | none =>
      rw [Function.update_self] at hmem
      exact (h.forest.nodup none).not_mem_erase hmem
    | some a =>
      rw [Function.update_of_ne (by simp)] at hmem
      exact h.forest.notMem_of_ne hy (by simp) hmem
  have hchild := h.child x hxnodes
  have hrings : Rings (m.fibNodeLink y x).toDll (linked R y x) := by
    cases hkids : R (some x) with
    | nil =>
      rw [hkids] at hchild
      rw [linked, hkids, List.nil_append]
      exact hcut.single (fun o _ => hlimbo o) (fibNodeLink_looped m x y hchild)
    | cons c t =>
      rw [hkids] at hchild hlist
      have hc : c ∈ Function.update R none ((R none).erase y) (some x) :=
        hlist ▸ List.mem_cons_self
      obtain ⟨-, hleft, hright⟩ := hcut.neighbours hc
      rw [linked, hkids]
      exact hcut.insertLast hlist hlimbo (fibNodeLink_inserted m x y hchild
        (fun heq => hlimbo _ (heq ▸ hc)) (fun heq => hlimbo _ (heq ▸ hleft)) hright)
  refine ⟨h.forest.underRoot hy hx hxy.symm List.perm_append_comm, hrings.ring, ?_, ?_, ?_⟩
  · intro o b hb
    rw [fibNodeLink_parent]
    by_cases hby : b = y
    · subst hby
      rw [Function.update_self]
      have hself : b ∈ linked R b x (some x) := by
        rw [linked_self]
        exact List.mem_append_right _ (List.mem_singleton_self b)
      exact hrings.disjoint hself hb
    · rw [Function.update_of_ne hby]
      refine h.parent ?_
      cases o with
      | none => exact List.mem_of_mem_erase (linked_none R y x ▸ hb)
      | some a =>
        by_cases hax : a = x
        · subst hax
          rw [linked_self] at hb
          exact (List.mem_append.mp hb).resolve_right fun hb => hby (List.mem_singleton.mp hb)
        · rwa [linked_of_ne R hax] at hb
  · intro a ha
    rw [fibNodeLink_child]
    by_cases hax : a = x
    · subst hax
      rw [Function.update_self, linked_self, hchild]
      cases R (some a) <;> rfl
    · rw [Function.update_of_ne hax, linked_of_ne R hax]
      exact h.child a ha
  · intro a ha
    rw [fibNodeLink_degree]
    by_cases hax : a = x
    · subst hax
      rw [Function.update_self, linked_self, List.length_append, h.degree a ha]
      rfl
    · rw [Function.update_of_ne hax, linked_of_ne R hax]
      exact h.degree a ha

/-- **Linking roots of the same degree** keeps the forest thin: the new child comes to stand at the
index that is its own degree, and is unmarked. Roots of different degrees would break it. -/
theorem fibNodeLink_markThin (h : Shape m R nodes) (hthin : MarkThin m R fun _ => 0) {x y : Addr}
    (hx : x ∈ R none) (hy : y ∈ R none) (hxy : x ≠ y) (hdeg : m.degree x = m.degree y) :
    MarkThin (m.fibNodeLink y x) (linked R y x) fun _ => 0 := by
  intro a i b hi
  rw [fibNodeLink_degree, fibNodeLink_mark]
  have hold : ∀ a, (R (some a))[i]? = some b →
      i ≤ Function.update m.degree x (m.degree x + 1) b +
        (if Function.update m.mark y false b = true then 1 else 0) + 0 := by
    intro a hi
    have hb := List.mem_of_getElem? hi
    have hbx : b ≠ x := fun heq => h.forest.notMem_of_ne hx (by simp) (heq ▸ hb)
    have hby : b ≠ y := fun heq => h.forest.notMem_of_ne hy (by simp) (heq ▸ hb)
    rw [Function.update_of_ne hbx, Function.update_of_ne hby]
    exact hthin a i b hi
  by_cases hax : a = x
  · subst hax
    rw [linked_self] at hi
    rcases Nat.lt_or_ge i (R (some a)).length with hlt | hge
    · rw [List.getElem?_append_left hlt] at hi
      exact hold a hi
    · rw [List.getElem?_append_right hge] at hi
      obtain ⟨hzero, rfl⟩ : i - (R (some a)).length = 0 ∧ y = b := by
        cases hk : i - (R (some a)).length with
        | zero => rw [hk] at hi; exact ⟨rfl, by simpa using hi⟩
        | succ k => rw [hk] at hi; simp at hi
      rw [Function.update_of_ne hxy.symm, ← hdeg, h.degree a (h.forest.mem hx)]
      omega
  · rw [linked_of_ne R hax] at hi
    exact hold a hi

/-! ## Cutting

The former parent has one child less than its mark may allow, and the siblings after the child move
to lower places. -/

section

variable (m) (c x y : Addr)

theorem cut_parent : (m.cut c x y).parent = Function.update m.parent x none := by
  simp only [cut]
  split_ifs <;> rfl

theorem cut_degree : (m.cut c x y).degree = Function.update m.degree y (m.degree y - 1) := by
  simp only [cut]
  split_ifs <;> rfl

theorem cut_mark : (m.cut c x y).mark = Function.update m.mark x false := by
  simp only [cut]
  split_ifs <;> rfl

theorem cut_child : (m.cut c x y).child =
    if m.right x = x then Function.update m.child y none
    else if m.child y = some x then Function.update m.child y (some ((m.spliceOut x).right x))
    else m.child := by
  have hchild : (m.spliceOut x).child y = m.child y := rfl
  simp only [cut, hchild]
  split_ifs <;> rfl

theorem cut_toDll : (m.cut c x y).toDll =
    ((if m.right x = x then m else m.spliceOut x).spliceIn c x).toDll := by
  have hchild : (m.spliceOut x).child y = m.child y := rfl
  simp only [cut, hchild]
  split_ifs <;> rfl

end

/-- The forest after `x` has been cut from `y`; the roots were `c :: t`. The node is put behind the
first root, which is `h->min`. -/
def cutOff (R : Option Addr → List Addr) (c : Addr) (t : List Addr) (x y : Addr) :
    Option Addr → List Addr :=
  Function.update (Function.update R (some y) ((R (some y)).erase x)) none (c :: x :: t)

theorem cutOff_none (R : Option Addr → List Addr) (c : Addr) (t : List Addr) (x y : Addr) :
    cutOff R c t x y none = c :: x :: t :=
  Function.update_self _ _ _

theorem cutOff_self (R : Option Addr → List Addr) (c : Addr) (t : List Addr) (x y : Addr) :
    cutOff R c t x y (some y) = (R (some y)).erase x := by
  rw [cutOff, Function.update_of_ne (by simp), Function.update_self]

theorem cutOff_of_ne (R : Option Addr → List Addr) (c : Addr) (t : List Addr) {x y a : Addr}
    (ha : a ≠ y) : cutOff R c t x y (some a) = R (some a) := by
  rw [cutOff, Function.update_of_ne (by simp), Function.update_of_ne (by simpa using ha)]

theorem mem_of_mem_cutOff {R : Option Addr → List Addr} {c : Addr} {t : List Addr} {x y a b : Addr}
    (hb : b ∈ cutOff R c t x y (some a)) : b ∈ R (some a) := by
  by_cases ha : a = y
  · subst ha
    rw [cutOff_self] at hb
    exact List.mem_of_mem_erase hb
  · rwa [cutOff_of_ne R c t ha] at hb

/-- The parent fields after the cut. -/
theorem update_parent_cutOff {R : Option Addr → List Addr} {d : Dll Addr}
    {parent : Addr → Option Addr} {c : Addr} {t : List Addr} {x y : Addr}
    (hrings : Rings d (cutOff R c t x y)) (hparent : ∀ {o b}, b ∈ R o → parent b = o)
    (hroots : R none = c :: t) {o : Option Addr} {b : Addr} (hb : b ∈ cutOff R c t x y o) :
    Function.update parent x none b = o := by
  by_cases hbx : b = x
  · subst hbx
    rw [Function.update_self]
    refine hrings.disjoint (o := none) ?_ hb
    rw [cutOff_none]
    exact List.mem_cons_of_mem _ List.mem_cons_self
  · rw [Function.update_of_ne hbx]
    refine hparent ?_
    cases o with
    | none =>
      rw [cutOff_none] at hb
      rw [hroots]
      rcases List.mem_cons.mp hb with rfl | hb
      · exact List.mem_cons_self
      · exact List.mem_cons_of_mem _ ((List.mem_cons.mp hb).resolve_left hbx)
    | some a => exact mem_of_mem_cutOff hb

/-- The child field of `y` after the cut. -/
theorem cut_child_self (h : Shape m R nodes) {c x y : Addr} (hx : x ∈ R (some y)) :
    (m.cut c x y).child y = ((R (some y)).erase x).head? := by
  have hchild := h.child y (h.forest.owner_mem hx)
  have hring := h.ring (some y)
  have hnd := h.forest.nodup (some y)
  rw [cut_child]
  split_ifs with hloop hhead
  · rw [Function.update_self, IsRing.eq_singleton hring hnd hx hloop]
    simp
  · rw [Function.update_self]
    cases hkids : R (some y) with
    | nil =>
      rw [hkids] at hx
      exact absurd hx List.not_mem_nil
    | cons b t =>
      rw [hkids] at hchild hring
      rw [hchild] at hhead
      obtain rfl : b = x := Option.some.inj hhead
      rw [List.erase_cons_head]
      cases t with
      | nil => exact absurd (isRing_singleton.mp hring).1 hloop
      | cons e t =>
        have hright : (m.spliceOut b).right b = m.right b := by
          by_cases hl : b = m.left b
          · have := (spliceOut_unlinked m b).right_left
            rwa [← hl] at this
          · exact (spliceOut_unlinked m b).right_eq b hl
        rw [hright, hring.right_head]
        rfl
  · rw [hchild]
    cases hkids : R (some y) with
    | nil => rfl
    | cons b t =>
      have hbx : b ≠ x := by
        rintro rfl
        rw [hkids] at hchild
        exact hhead hchild
      rw [List.erase_cons_tail (by simpa using hbx)]
      rfl

/-- **`cut`**. The node is unlinked from its siblings only if there are any, and the child field of
the parent moves on if it was the head that went. -/
theorem cut_shape (h : Shape m R nodes) {c x y : Addr} {t : List Addr} (hroots : R none = c :: t)
    (hx : x ∈ R (some y)) : Shape (m.cut c x y) (cutOff R c t x y) nodes := by
  have hout : Rings (if m.right x = x then m else m.spliceOut x).toDll
      (Function.update R (some y) ((R (some y)).erase x)) := by
    refine h.rings.unlink hx ?_
    split_ifs with hloop
    · -- the only child is its own neighbour
      have hleft : m.left x = x := by
        have := (h.rings.neighbours hx).1.2
        rwa [hloop] at this
      exact ⟨by rw [hleft], by rw [hloop], fun _ _ => rfl, fun _ _ => rfl⟩
    · exact spliceOut_unlinked m x
  have hroots' : Function.update R (some y) ((R (some y)).erase x) none = c :: t := by
    rw [Function.update_of_ne (by simp), hroots]
  have hc : c ∈ Function.update R (some y) ((R (some y)).erase x) none :=
    hroots' ▸ List.mem_cons_self
  have hlimbo : ∀ o, x ∉ Function.update R (some y) ((R (some y)).erase x) o := by
    intro o hmem
    by_cases ho : o = some y
    · rw [ho, Function.update_self] at hmem
      exact (h.forest.nodup _).not_mem_erase hmem
    · rw [Function.update_of_ne ho] at hmem
      exact h.forest.notMem_of_ne hx ho hmem
  have hrings : Rings (m.cut c x y).toDll (cutOff R c t x y) := by
    rw [cut_toDll]
    refine hout.insert hroots' hlimbo (spliceIn_inserted (fun heq => hlimbo none (heq ▸ hc)) ?_)
    exact fun heq => hlimbo none (heq ▸ (hout.neighbours hc).1.1)
  have hforest : IsForest (cutOff R c t x y) nodes := by
    refine h.forest.toRoots hx ?_
    rw [hroots]
    exact List.Perm.swap x c t
  refine ⟨hforest, hrings.ring, ?_, ?_, ?_⟩
  · intro o b hb
    rw [cut_parent]
    exact update_parent_cutOff hrings h.parent hroots hb
  · intro a ha
    by_cases hay : a = y
    · subst hay
      rw [cutOff_self, cut_child_self h hx]
    · rw [cutOff_of_ne R c t hay, cut_child, ← h.child a ha]
      split_ifs
      · exact Function.update_of_ne hay _ _
      · exact Function.update_of_ne hay _ _
      · rfl
  · intro a ha
    rw [cut_degree]
    by_cases hay : a = y
    · subst hay
      rw [Function.update_self, cutOff_self, List.length_erase_of_mem hx, h.degree a ha]
    · rw [Function.update_of_ne hay, cutOff_of_ne R c t hay]
      exact h.degree a ha

/-- An element of a sublist stands no earlier in the list. -/
theorem exists_getElem?_of_sublist {α : Type*} {l l' : List α} (hl : l.Sublist l') {i : ℕ} {b : α}
    (hi : l[i]? = some b) : ∃ j, i ≤ j ∧ l'[j]? = some b := by
  induction hl generalizing i with
  | slnil => exact ⟨i, le_rfl, hi⟩
  | cons a _ ih =>
    obtain ⟨j, hij, hj⟩ := ih hi
    exact ⟨j + 1, by omega, hj⟩
  | cons_cons a _ ih =>
    cases i with
    | zero => exact ⟨0, le_rfl, hi⟩
    | succ i =>
      obtain ⟨j, hij, hj⟩ := ih hi
      exact ⟨j + 1, by omega, hj⟩

/-- One more lost child. -/
def lostAt (y : Addr) : Addr → ℕ := fun b => if b = y then 1 else 0

/-- **A cut** costs its parent a child. Those behind it move up by one, which is no harm, as the
bound for a smaller index is weaker. -/
theorem cut_markThin (h : Shape m R nodes) {c x y : Addr} {t : List Addr} (hroots : R none = c :: t)
    (hx : x ∈ R (some y)) (hthin : MarkThin m R fun b => if b = x then 1 else 0) :
    MarkThin (m.cut c x y) (cutOff R c t x y) (lostAt y) := by
  intro a i b hi
  have hb := List.mem_of_getElem? hi
  have hbx : b ≠ x := by
    rintro rfl
    have hroot : b ∈ cutOff R c t b y none := by
      rw [cutOff_none]
      exact List.mem_cons_of_mem _ List.mem_cons_self
    exact (cut_shape h hroots hx).forest.notMem_of_ne hroot (by simp) hb
  -- the cut only moves children to lower places
  obtain ⟨j, hij, hj⟩ : ∃ j, i ≤ j ∧ (R (some a))[j]? = some b := by
    by_cases hay : a = y
    · subst hay
      rw [cutOff_self] at hi
      exact exists_getElem?_of_sublist List.erase_sublist hi
    · rw [cutOff_of_ne R c t hay] at hi
      exact ⟨i, le_rfl, hi⟩
  have hle : j ≤ m.degree b + (if m.mark b = true then 1 else 0) + (if b = x then 1 else 0) :=
    hthin a j b hj
  rw [if_neg hbx] at hle
  rw [cut_degree, cut_mark, Function.update_of_ne hbx, lostAt]
  by_cases hby : b = y
  · subst hby
    rw [Function.update_self, if_pos rfl]
    omega
  · rw [Function.update_of_ne hby, if_neg hby]
    omega

/-! ## Cascading cuts -/

/-- What cutting leaves alone: the first root, and which nodes have which for a parent, except that
some have become roots. -/
structure CutSpec (m' : FibNodes) (R R' : Option Addr → List Addr) (nodes : Finset Addr)
    (c : Addr) :
    Prop where
  shape : Shape m' R' nodes
  markThin : MarkThin m' R' fun _ => 0
  roots : ∃ t, R' none = c :: t
  /-- No node gets a child that it did not have. -/
  children : ∀ {a b}, b ∈ R' (some a) → b ∈ R (some a)

theorem setMark_shape (h : Shape m R nodes) (y : Addr) (v : Bool) :
    Shape (m.setMark y v) R nodes :=
  ⟨h.forest, h.ring, h.parent, h.child, h.degree⟩

/-- The marked nodes. -/
def marked (m : FibNodes) (nodes : Finset Addr) : Finset Addr :=
  nodes.filter fun a => m.mark a = true

/-- **`cascading_cut`**, by induction on the number of marked nodes. It is entered with one node
that has lost a child too many, and either marks that node, or cuts it too and goes on with its
parent. -/
theorem cascadingCut_spec (fuel : ℕ) {c y : Addr} {t : List Addr} (h : Shape m R nodes)
    (hroots : R none = c :: t) (hy : y ∈ nodes) (hthin : MarkThin m R (lostAt y))
    (hfuel : (m.marked nodes).card < fuel) :
    ∃ m' R', m.cascadingCut c fuel y = some m' ∧ CutSpec m' R R' nodes c := by
  induction fuel generalizing m R y t with
  | zero => exact absurd hfuel (Nat.not_lt_zero _)
  | succ fuel ih =>
    rw [cascadingCut]
    obtain ⟨o, hyo⟩ := h.forest.mem_iff.mp hy
    rw [h.parent hyo]
    cases o with
    | none =>
      -- a root is nobody's child, so what it has lost is not missed
      refine ⟨m, R, rfl, h, fun a i b hi => ?_, ⟨t, hroots⟩, id⟩
      have hby : b ≠ y := fun heq =>
        h.forest.notMem_of_ne hyo (by simp) (heq ▸ List.mem_of_getElem? hi)
      have hle := hthin a i b hi
      rwa [lostAt, if_neg hby] at hle
    | some z =>
      by_cases hmark : m.mark y = false
      · refine ⟨m.setMark y true, R, if_pos hmark, setMark_shape h y true, fun a i b hi => ?_,
          ⟨t, hroots⟩, id⟩
        have hle := hthin a i b hi
        show i ≤ m.degree b + (if Function.update m.mark y true b = true then 1 else 0) + 0
        by_cases hby : b = y
        · subst hby
          rw [Function.update_self, if_pos rfl]
          rw [hmark, lostAt, if_pos rfl] at hle
          simpa using hle
        · rw [Function.update_of_ne hby]
          rwa [lostAt, if_neg hby] at hle
      · have hcard : ((m.cut c y z).marked nodes).card < (m.marked nodes).card := by
          refine Finset.card_lt_card (Finset.ssubset_iff_of_subset ?_ |>.mpr ⟨y, ?_, ?_⟩)
          · intro a ha
            rw [marked, Finset.mem_filter, cut_mark] at ha
            refine Finset.mem_filter.mpr ⟨ha.1, ?_⟩
            by_cases hay : a = y
            · rw [hay]
              simpa using hmark
            · rw [← ha.2, Function.update_of_ne hay]
          · exact Finset.mem_filter.mpr ⟨hy, by simpa using hmark⟩
          · rw [marked, Finset.mem_filter, cut_mark, Function.update_self]
            simp
        obtain ⟨m', R', hrun, hspec⟩ := ih (cut_shape h hroots hyo) (cutOff_none R c t y z)
          (h.forest.owner_mem hyo) (cut_markThin h hroots hyo hthin) (by omega)
        exact ⟨m', R', (if_neg hmark).trans hrun, hspec.shape, hspec.markThin, hspec.roots,
          fun hb => mem_of_mem_cutOff (hspec.children hb)⟩

/-- **`cut` and `cascading_cut`** together. -/
theorem cutCascade_spec {fuel : ℕ} {c x y : Addr} {t : List Addr} (h : Shape m R nodes)
    (hroots : R none = c :: t) (hx : x ∈ R (some y)) (hthin : MarkThin m R fun _ => 0)
    (hfuel : nodes.card < fuel) :
    ∃ m' R', (m.cut c x y).cascadingCut c fuel y = some m' ∧ CutSpec m' R R' nodes c ∧
      x ∈ R' none := by
  have hslack : MarkThin m R fun b => if b = x then 1 else 0 :=
    fun a i b hi => (hthin a i b hi).trans (Nat.add_le_add_left (Nat.zero_le _) _)
  have hmarked : ((m.cut c x y).marked nodes).card < fuel :=
    (Finset.card_filter_le _ _).trans_lt hfuel
  obtain ⟨m', R', hrun, hspec⟩ := cascadingCut_spec fuel (cut_shape h hroots hx)
    (cutOff_none R c t x y) (h.forest.owner_mem hx) (cut_markThin h hroots hx hslack) hmarked
  refine ⟨m', R', hrun, ⟨hspec.shape, hspec.markThin, hspec.roots,
    fun hb => mem_of_mem_cutOff (hspec.children hb)⟩, ?_⟩
  obtain ⟨o, ho⟩ := hspec.shape.forest.mem_iff.mp (h.forest.mem hx)
  cases o with
  | none => exact ho
  | some a =>
    -- after the cut `x` was a root, and roots stay roots
    have hroot : x ∈ cutOff R c t x y none := by
      rw [cutOff_none]
      exact List.mem_cons_of_mem _ List.mem_cons_self
    exact absurd (hspec.children ho)
      ((cut_shape h hroots hx).forest.notMem_of_ne hroot (by simp))

end FibNodes

end Heap

end OvaLib
