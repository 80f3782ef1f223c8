import OvaLib.Heap.FibonacciConsolidate

/-!
# Promotion of children

`fibonacci_heap_pop` first moves the children of the node it takes out to the root list. Its loop
does not stop when it has moved the last one: the field it goes on with already points into the root
list. It then moves the children a second time, backwards, until it meets the first.
`promoteRoots_spec` is about this second part.

## What the loop does

With children `c₁, …, cₖ` the loop starts at `c₁` and is to stop at `c₁`. Each turn takes the
present node out of its ring and puts it right after `z` among the roots. When it is the turn of
`cₖ`, the ring of the children is `cₖ` alone, whose right field leads to itself. So `cₖ` is the next
node as well, unless it is `c₁`. By then it is a root, and the moved children stand behind `z` in
reverse order; following right fields the loop comes back to `c₁` through them and moves each of the
others once more. It makes `2 * k - 1` turns.

The outcome is none the worse for it: one ring of roots, in which every old root and every child
stands once. The order is not what one would think, and nothing depends on it.

## Implementation notes

A turn is described by what it does to the rings wherever the node was, among the children or among
the roots: afterwards it stands after `z`. The two parts of the loop then are two inductions on
lists with the same step. The fuel that is enough is twice the number of nodes.

## Main results

* `promoteChildren_spec` — the loop
* `promoteChildren_ring` — the ring of roots after it
* `Promoted.remove` — taking out a root without children
-/

namespace OvaLib

namespace Heap

open Foundation

variable {α : Type*} {cmp : Option α → Option α → ℤ} {data : Addr → Option α}

namespace FibNodes

variable {m : FibNodes} {R : Option Addr → List Addr} {nodes : Finset Addr}

/-! ## Promotion of children -/

/-- The fields promotion leaves alone: degrees and marks, and the child fields of all nodes but `z`.
The degree of `z` is not reset, and need not be, as the node is about to be freed. -/
structure PromoteFrame (m m' : FibNodes) (z : Addr) : Prop where
  child : ∀ a ≠ z, m'.child a = m.child a
  degree : m'.degree = m.degree
  mark : m'.mark = m.mark

/-- One turn of the loop moves `x` to the place after `z`. -/
def promoteOne (m : FibNodes) (z x : Addr) : FibNodes :=
  ((m.spliceOut x).spliceIn z x).setParent x none

/-- **One turn**: wherever `x` was, it is after `z` then. -/
theorem promoteOne_rings (h : Rings m.toDll R) {o : Option Addr} {x z : Addr} {t : List Addr}
    (hx : x ∈ R o) (hroots : Function.update R o ((R o).erase x) none = z :: t) :
    Rings (m.promoteOne z x).toDll
      (Function.update (Function.update R o ((R o).erase x)) none (z :: x :: t)) := by
  have hout := h.unlink hx (spliceOut_unlinked m x)
  have hlimbo : ∀ o', x ∉ Function.update R o ((R o).erase x) o' := by
    intro o' hmem
    by_cases ho : o' = o
    · rw [ho, Function.update_self] at hmem
      exact (h.nodup o).not_mem_erase hmem
    · rw [Function.update_of_ne ho] at hmem
      exact h.notMem_of_ne hx ho hmem
  have hz : z ∈ Function.update R o ((R o).erase x) none := hroots ▸ List.mem_cons_self
  refine hout.insert hroots hlimbo (spliceIn_inserted (fun heq => hlimbo none (heq ▸ hz)) ?_)
  intro heq
  have hmem := (hout.neighbours hz).1.1
  rw [heq] at hmem
  exact hlimbo none hmem

/-- **The second part of the loop**, which goes back through the root list, by induction on the
roots after `x`. It moves roots among the roots, so that only their order changes. -/
theorem promoteRoots_spec (suf pre : List Addr) {z start x : Addr}
    (h : Rings m.toDll R) (hparent : ∀ a ∈ R none, m.parent a = none)
    (hroots : R none = z :: pre ++ x :: suf) (hstart : start ∈ suf) {fuel : ℕ}
    (hfuel : suf.length < fuel) :
    ∃ m' l, promoteChildren z start fuel m x = some m' ∧ PromoteFrame m m' z ∧
      m'.parent = m.parent ∧ (z :: l).Perm (R none) ∧
      Rings m'.toDll (Function.update R none (z :: l)) := by
  induction suf generalizing m R x pre fuel with
  | nil => exact absurd hstart List.not_mem_nil
  | cons b suf ih =>
    obtain ⟨fuel, rfl⟩ : ∃ k, fuel = k + 1 := ⟨fuel - 1, by omega⟩
    rw [List.length_cons] at hfuel
    have hnd := h.nodup none
    have hring := h.ring none
    rw [hroots] at hnd hring
    have hx : x ∈ R none := hroots ▸ by simp
    have hxpre : x ∉ z :: pre := fun hmem =>
      (List.nodup_append.mp hnd).2.2 x hmem x List.mem_cons_self rfl
    have hnext : m.right x = b := IsRing.right_head (l := suf ++ z :: pre) (IsRing.rotate hring)
    have herase : (R none).erase x = z :: (pre ++ b :: suf) := by
      rw [hroots, List.erase_append_right _ hxpre, List.erase_cons_head, List.cons_append]
    have hout : Function.update R none ((R none).erase x) none = z :: (pre ++ b :: suf) := by
      rw [Function.update_self, herase]
    have hrings := promoteOne_rings h hx hout
    rw [Function.update_idem] at hrings
    have hparent' : (m.promoteOne z x).parent = m.parent := by
      show Function.update m.parent x none = m.parent
      rw [← hparent x hx, Function.update_eq_self]
    have hperm : (z :: x :: (pre ++ b :: suf)).Perm (R none) := by
      rw [hroots, List.cons_append]
      exact (List.perm_middle.symm).cons z
    by_cases hb : b = start
    · refine ⟨m.promoteOne z x, x :: (pre ++ b :: suf), ?_, ⟨fun _ _ => rfl, rfl, rfl⟩,
        hparent', hperm, hrings⟩
      rw [promoteChildren, hnext]
      exact if_pos hb
    · have hroots' : Function.update R none (z :: x :: (pre ++ b :: suf)) none =
          z :: (x :: pre) ++ b :: suf := by
        rw [Function.update_self]
        simp
      obtain ⟨m', l, hrun, hframe, hpar, hl, hrings'⟩ := ih (x :: pre) hrings (fun a ha => by
          rw [Function.update_self] at ha
          rw [hparent', hparent a (hperm.mem_iff.mp ha)]) hroots'
        ((List.mem_cons.mp hstart).resolve_left fun heq => hb heq.symm)
        (show suf.length < fuel by omega)
      rw [Function.update_self] at hl
      rw [Function.update_idem] at hrings'
      refine ⟨m', l, ?_, ⟨hframe.child, hframe.degree, hframe.mark⟩, hpar.trans hparent',
        hl.trans hperm, hrings'⟩
      rw [promoteChildren, hnext]
      exact (if_neg hb).trans hrun

/-- The forest once `z` has no children. The ring of the roots is given up to its order. -/
structure Promoted (m m' : FibNodes) (R R' : Option Addr → List Addr) (nodes : Finset Addr)
    (z : Addr) : Prop where
  forest : IsForest R' nodes
  rings : Rings m'.toDll R'
  parent : ∀ {o b}, b ∈ R' o → m'.parent b = o
  /-- There are no children left. -/
  leaf : R' (some z) = []
  roots : ∃ l, R' none = z :: l
  /-- The children of other nodes stay as they are. -/
  keep : ∀ a, a ≠ z → R' (some a) = R (some a)
  frame : PromoteFrame m m' z

/-- The first child becomes the root after `z`, and the others stay. -/
theorem promoteOne_spec {z x : Addr} {t rest : List Addr} (hF : IsForest R nodes)
    (h : Rings m.toDll R) (hparent : ∀ {o b}, b ∈ R o → m.parent b = o) (hroots : R none = z :: t)
    (hkids : R (some z) = x :: rest) :
    IsForest (cutOff R z t x z) nodes ∧ Rings (m.promoteOne z x).toDll (cutOff R z t x z) ∧
      (∀ {o b}, b ∈ cutOff R z t x z o → (m.promoteOne z x).parent b = o) ∧
      cutOff R z t x z (some z) = rest := by
  have hx : x ∈ R (some z) := hkids ▸ List.mem_cons_self
  have hrings : Rings (m.promoteOne z x).toDll (cutOff R z t x z) :=
    promoteOne_rings h hx (by rw [Function.update_of_ne (by simp), hroots])
  exact ⟨hF.toRoots hx (hroots ▸ List.Perm.swap x z t), hrings,
    fun hb => update_parent_cutOff hrings hparent hroots hb,
    by rw [cutOff_self, hkids, List.erase_cons_head]⟩

/-- **The loop over the children of `z`**, by induction on those after `x`. When the last of them
has been moved the loop is among the roots, and what is left of it is the second part. -/
theorem promoteChildren_spec (rest : List Addr) {z start x : Addr} {t : List Addr}
    (hF : IsForest R nodes) (h : Rings m.toDll R) (hparent : ∀ {o b}, b ∈ R o → m.parent b = o)
    (hroots : R none = z :: t) (hkids : R (some z) = x :: rest) (hstart : start = x ∨ start ∈ t)
    {fuel : ℕ} (hfuel : 2 * rest.length + t.length + 2 ≤ fuel) :
    ∃ m' R', promoteChildren z start fuel m x = some m' ∧ Promoted m m' R R' nodes z := by
  induction rest generalizing m R x t fuel with
  | nil =>
    obtain ⟨fuel, rfl⟩ : ∃ k, fuel = k + 1 := ⟨fuel - 1, by omega⟩
    obtain ⟨hF₁, hrings₁, hparent₁, hkids₁⟩ := promoteOne_spec hF h hparent hroots hkids
    have hring : IsRing m.toDll [x] := hkids ▸ h.ring (some z)
    have hnext : m.right x = x := (isRing_singleton.mp hring).1
    by_cases hxs : x = start
    · refine ⟨m.promoteOne z x, cutOff R z t x z, ?_, hF₁, hrings₁, hparent₁, hkids₁,
        ⟨_, cutOff_none R z t x z⟩, fun a ha => cutOff_of_ne R z t ha, ⟨fun _ _ => rfl, rfl, rfl⟩⟩
      rw [promoteChildren, hnext]
      exact if_pos hxs
    · -- the last child has moved; the loop goes on through the roots
      have ht : start ∈ t := hstart.resolve_left fun heq => hxs heq.symm
      obtain ⟨m', l, hrun, hframe, hpar, hl, hrings'⟩ := promoteRoots_spec t [] hrings₁
        (fun a ha => hparent₁ ha) (cutOff_none R z t x z) ht
        (show t.length < fuel by simp only [List.length_nil] at hfuel; omega)
      have hkeep : ∀ a, Function.update (cutOff R z t x z) none (z :: l) (some a) =
          cutOff R z t x z (some a) := fun a => Function.update_of_ne (by simp) _ _
      refine ⟨m', Function.update (cutOff R z t x z) none (z :: l), ?_, hF₁.permRoots hl, hrings',
        fun {o b} hb => ?_, by rw [hkeep, hkids₁], ⟨l, Function.update_self _ _ _⟩,
        fun a ha => by rw [hkeep, cutOff_of_ne R z t ha],
        ⟨hframe.child, hframe.degree, hframe.mark⟩⟩
      · rw [promoteChildren, hnext]
        exact (if_neg hxs).trans hrun
      · rw [hpar]
        refine hparent₁ ?_
        cases o with
        | none =>
          rw [Function.update_self] at hb
          exact hl.mem_iff.mp hb
        | some a => rwa [hkeep] at hb
  | cons b rest ih =>
    obtain ⟨fuel, rfl⟩ : ∃ k, fuel = k + 1 := ⟨fuel - 1, by omega⟩
    rw [List.length_cons] at hfuel
    obtain ⟨hF₁, hrings₁, hparent₁, hkids₁⟩ := promoteOne_spec hF h hparent hroots hkids
    have hring : IsRing m.toDll (x :: b :: rest) := hkids ▸ h.ring (some z)
    have hnd : (x :: b :: rest).Nodup := hkids ▸ h.nodup (some z)
    have hnext : m.right x = b := hring.right_head
    have hb : b ∈ R (some z) := hkids ▸ List.mem_cons_of_mem _ List.mem_cons_self
    have hbs : b ≠ start := by
      rintro rfl
      rcases hstart with rfl | hmem
      · exact (List.nodup_cons.mp hnd).1 List.mem_cons_self
      · exact h.notMem_of_ne hb (by simp) (hroots ▸ List.mem_cons_of_mem _ hmem : b ∈ R none)
    have hstart₁ : start = b ∨ start ∈ x :: t := by
      rcases hstart with rfl | hmem
      · exact .inr List.mem_cons_self
      · exact .inr (List.mem_cons_of_mem _ hmem)
    obtain ⟨m', R', hrun, hspec⟩ := ih hF₁ hrings₁ hparent₁ (cutOff_none R z t x z) hkids₁ hstart₁
      (show 2 * rest.length + (x :: t).length + 2 ≤ fuel by rw [List.length_cons]; omega)
    refine ⟨m', R', ?_, hspec.forest, hspec.rings, hspec.parent, hspec.leaf, hspec.roots,
      fun a ha => (hspec.keep a ha).trans (cutOff_of_ne R z t ha),
      ⟨hspec.frame.child, hspec.frame.degree, hspec.frame.mark⟩⟩
    rw [promoteChildren, hnext]
    exact (if_neg hbs).trans hrun

/-- **All children of `z` become roots.** -/
theorem promote_spec {z : Addr} {t : List Addr} (h : Shape m R nodes) (hroots : R none = z :: t)
    {fuel : ℕ} (hfuel : 2 * nodes.card ≤ fuel) :
    ∃ m' R', m.promote z fuel = some m' ∧ Promoted m m' R R' nodes z := by
  have hz : z ∈ nodes := h.forest.mem (hroots ▸ List.mem_cons_self : z ∈ R none)
  have hchild := h.child z hz
  cases hkids : R (some z) with
  | nil =>
    rw [hkids, List.head?_nil] at hchild
    rw [promote, hchild]
    exact ⟨m, R, rfl, h.forest, h.rings, h.parent, hkids, ⟨t, hroots⟩, fun _ _ => rfl,
      ⟨fun _ _ => rfl, rfl, rfl⟩⟩
  | cons x rest =>
    rw [hkids, List.head?_cons] at hchild
    rw [promote, hchild]
    -- the roots and the children of `z` are different nodes
    have hnd : (R none ++ R (some z)).Nodup := h.forest.nodup_append (by simp)
    have hlen : (R none).length + (R (some z)).length ≤ nodes.card := by
      rw [← List.length_append]
      refine length_le_card_of_nodup hnd fun a ha => ?_
      rcases List.mem_append.mp ha with ha | ha
      · exact h.forest.mem ha
      · exact h.forest.mem ha
    rw [hroots, hkids, List.length_cons, List.length_cons] at hlen
    obtain ⟨m', R', hrun, hspec⟩ := promoteChildren_spec rest h.forest h.rings h.parent hroots hkids
      (.inl rfl) (show 2 * rest.length + t.length + 2 ≤ fuel by omega)
    refine ⟨m'.setChild z none, R', by simp only [hrun, Option.map_some], hspec.forest,
      hspec.rings, hspec.parent, hspec.leaf, hspec.roots, hspec.keep,
      ⟨fun a ha => ?_, hspec.frame.degree, hspec.frame.mark⟩⟩
    exact (Function.update_of_ne ha _ _).trans (hspec.frame.child a ha)

/-- **The roots afterwards**: the old ones and the children of `z`, each once. -/
theorem Promoted.perm {m' : FibNodes} {R' : Option Addr → List Addr} {z : Addr}
    (hp : Promoted m m' R R' nodes z) (hF : IsForest R nodes) :
    (R' none).Perm (R none ++ R (some z)) := by
  have hnd : (R none ++ R (some z)).Nodup := hF.nodup_append (by simp)
  refine (List.perm_ext_iff_of_nodup (hp.forest.nodup none) hnd).mpr fun a => ?_
  rw [List.mem_append]
  constructor
  · intro ha
    obtain ⟨o, ho⟩ := hF.mem_iff.mp (hp.forest.mem ha)
    cases o with
    | none => exact .inl ho
    | some b =>
      by_cases hbz : b = z
      · exact .inr (hbz ▸ ho)
      · rw [← hp.keep b hbz] at ho
        exact absurd ho (hp.forest.notMem_of_ne ha (by simp))
  · intro ha
    have hmem : a ∈ nodes := ha.elim hF.mem hF.mem
    obtain ⟨o, ho⟩ := hp.forest.mem_iff.mp hmem
    cases o with
    | none => exact ho
    | some b =>
      have hbz : b ≠ z := by
        rintro rfl
        rw [hp.leaf] at ho
        exact absurd ho List.not_mem_nil
      rw [hp.keep b hbz] at ho
      rcases ha with ha | ha
      · exact absurd ho (hF.notMem_of_ne ha (by simp))
      · exact absurd ho (hF.notMem_of_ne ha (by simpa using hbz))

/-- **The loop of `fibonacci_heap_pop` over the children of `z`** returns, and the roots are then
one ring: the old roots and the children, each once, with no parent. -/
theorem promoteChildren_ring {z start : Addr} {t rest : List Addr} (h : Shape m R nodes)
    (hroots : R none = z :: t) (hkids : R (some z) = start :: rest) :
    m.child z = some start ∧ ∀ fuel, 2 * rest.length + t.length + 2 ≤ fuel →
      ∃ m' roots, promoteChildren z start fuel m start = some m' ∧
        IsRing m'.toDll roots ∧ roots.Nodup ∧ roots.Perm (R none ++ R (some z)) ∧
        ∀ a ∈ roots, m'.parent a = none := by
  have hz : z ∈ nodes := h.forest.mem (hroots ▸ List.mem_cons_self : z ∈ R none)
  refine ⟨by rw [h.child z hz, hkids]; rfl, fun fuel hfuel => ?_⟩
  obtain ⟨m', R', hrun, hp⟩ :=
    promoteChildren_spec rest h.forest h.rings h.parent hroots hkids (.inl rfl) hfuel
  exact ⟨m', R' none, hrun, hp.rings.ring none, hp.forest.nodup none, hp.perm h.forest,
    fun a ha => hp.parent ha⟩

/-- The lists of a root with two children, and another root. -/
def twoChildren : Option Addr → List Addr
  | none => [0, 3]
  | some 0 => [1, 2]
  | some _ => []

/-- A memory that holds them. -/
def twoChildrenNodes : FibNodes where
  left a := if a = 0 then 3 else if a = 1 then 2 else if a = 2 then 1 else 0
  right a := if a = 0 then 3 else if a = 1 then 2 else if a = 2 then 1 else 0
  parent a := if a = 1 ∨ a = 2 then some 0 else none
  child a := if a = 0 then some 1 else none
  degree a := if a = 0 then 2 else 0
  mark _ := false

theorem mem_twoChildren {a : Addr} {o : Option Addr} :
    a ∈ twoChildren o ↔ (o = none ∧ (a = 0 ∨ a = 3)) ∨ (o = some 0 ∧ (a = 1 ∨ a = 2)) := by
  rcases o with _ | _ | n <;> simp [twoChildren]

theorem twoChildrenNodes_shape : Shape twoChildrenNodes twoChildren {0, 1, 2, 3} where
  forest :=
    { nodup := by rintro (_ | _ | n) <;> simp [twoChildren]
      disjoint := fun h h' => by
        rw [mem_twoChildren] at h h'
        grind
      mem_iff := fun {a} => by
        simp only [mem_twoChildren, Option.exists]
        grind
      owner_mem := fun h => by
        rw [mem_twoChildren] at h
        simp_all
      ranked := ⟨fun a => if a = 0 then 1 else 0, fun h => by
        rw [mem_twoChildren] at h
        grind⟩ }
  ring := by rintro (_ | _ | n) <;> simp [twoChildren, twoChildrenNodes, IsRing, Dll.Adj]
  parent := fun h => by
    rw [mem_twoChildren] at h
    simp only [twoChildrenNodes]
    grind
  child := by decide
  degree := by decide

/-- Two children, and one more root. -/
theorem promoteChildren_ring_two :
    twoChildrenNodes.child 0 = some 1 ∧ ∀ fuel, 2 * [2].length + [3].length + 2 ≤ fuel →
      ∃ m' roots, promoteChildren 0 1 fuel twoChildrenNodes 1 = some m' ∧
        IsRing m'.toDll roots ∧ roots.Nodup ∧
        roots.Perm (twoChildren none ++ twoChildren (some 0)) ∧
        ∀ a ∈ roots, m'.parent a = none :=
  promoteChildren_ring twoChildrenNodes_shape rfl rfl

/-- **A root without children is taken out.** -/
theorem Promoted.remove {z : Addr} {l : List Addr} {m' : FibNodes} {R' : Option Addr → List Addr}
    (h : Tidy cmp data m R nodes) (hp : Promoted m m' R R' nodes z) (hroots : R' none = z :: l) :
    Tidy cmp data (m'.spliceOut z) (Function.update R' none l) (nodes.erase z) := by
  have hz : z ∈ R' none := hroots ▸ List.mem_cons_self
  have herase : (R' none).erase z = l := by rw [hroots, List.erase_cons_head]
  have hforest := hp.forest.removeRoot hz hp.leaf
  have hrings := hp.rings.unlink hz (spliceOut_unlinked m' z)
  rw [herase] at hforest hrings
  have hkeep : ∀ a, a ≠ z → Function.update R' none l (some a) = R (some a) := by
    intro a ha
    rw [Function.update_of_ne (by simp), hp.keep a ha]
  have hleaf : Function.update R' none l (some z) = [] := by
    rw [Function.update_of_ne (by simp), hp.leaf]
  have hchildren : ∀ {a b}, b ∈ Function.update R' none l (some a) → b ∈ R (some a) := by
    intro a b hb
    by_cases ha : a = z
    · rw [ha, hleaf] at hb
      exact absurd hb List.not_mem_nil
    · rwa [hkeep a ha] at hb
  refine ⟨⟨hforest, hrings.ring, fun {o b} hb => ?_, fun a ha => ?_, fun a ha => ?_⟩,
    fun a i b hi => ?_, fun {a b} hb => h.ordered (hchildren hb)⟩
  · refine hp.parent ?_
    cases o with
    | none =>
      rw [Function.update_self] at hb
      exact hroots ▸ List.mem_cons_of_mem _ hb
    | some a => rwa [Function.update_of_ne (by simp)] at hb
  · obtain ⟨hne, ha⟩ := Finset.mem_erase.mp ha
    rw [hkeep a hne, ← h.shape.child a ha]
    exact hp.frame.child a hne
  · obtain ⟨hne, ha⟩ := Finset.mem_erase.mp ha
    rw [hkeep a hne, ← h.shape.degree a ha]
    exact congrFun hp.frame.degree a
  · show i ≤ m'.degree b + (if m'.mark b = true then 1 else 0) + 0
    rw [hp.frame.degree, hp.frame.mark]
    have ha : a ≠ z := by
      rintro rfl
      rw [hleaf] at hi
      cases hi
    rw [hkeep a ha] at hi
    exact h.markThin a i b hi

end FibNodes

end Heap

end OvaLib
