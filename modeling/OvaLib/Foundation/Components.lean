import Mathlib.Data.Finset.Card
import Mathlib.Data.Int.Order.Basic
import Mathlib.Data.List.Nodup
import Mathlib.Data.Set.Insert
import Mathlib.Logic.Function.Basic
import Mathlib.Logic.Relation
import Mathlib.Tactic.Common
import OvaLib.Foundation.FiniteSet

/-!
# Strongly connected components by depth-first search

A search numbers the vertices in the order in which it comes to them and keeps them on a stack. It
stands at the end of a path of vertices whose edges it has not all followed; every vertex of the
stack leads back to one of the path. When no edge leads from the last vertex of the path and the
entries above it to an entry below, they are a component.

## The invariant

The vertices a search has come to are those of the stack and those of the finished components. The
path is a part of the stack, in the same order. From a vertex of the path there is a way to every
entry above it, and from every entry there is a way to a vertex of the path that is not above it. So
when the search is done with the last vertex of its path, the entries from it upwards are connected
to it; and if no edge leaves them for an entry below, nothing else is, and they can be cut off.

Whether an edge leaves them is what the low-links are for. `LowLink` says what is known of one after
some of the edges: it is the number of the vertex or of an entry that it leads to, and it is not
above the number of any entry below to which a followed edge leads, from the vertex or from an entry
above it. That is all the decision needs; it is not claimed that a low-link is the least number in
reach.

The components come out with the edges between them leading from later to earlier ones, as each is
cut off when everything it leads to is finished.

## Main results

* `Search.Inv.enter`, `Search.Inv.leave`, `Search.Inv.cut` — the three steps of a search
* `LowLink.skip`, `LowLink.lower`, `LowLink.child` — what is known after one more edge
* `Search.Inv.isComponents` — a search that has come to an end
-/

namespace Foundation

open Relation

variable {V : Type*}

/-- Each of two vertices is reachable from the other. -/
def Connected (E : V → V → Prop) (u v : V) : Prop := ReflTransGen E u v ∧ ReflTransGen E v u

/-- A list of the strongly connected components, in reverse topological order. -/
structure IsComponents (E : V → V → Prop) (vertices : Set V) (comps : List (List V)) : Prop where
  nodup : comps.flatten.Nodup
  mem_iff : ∀ v, v ∈ comps.flatten ↔ v ∈ vertices
  connected : ∀ c ∈ comps, ∀ u ∈ c, ∀ v, v ∈ c ↔ Connected E u v
  order : comps.Pairwise fun c d => ∀ u ∈ c, ∀ v ∈ d, ¬ E u v

/-- The state of a search: the vertices it came to with their numbers, the stack, latest entry
first, and the components that are complete. -/
structure Search (V : Type*) where
  /-- The vertices the search has come to. -/
  visited : Set V
  number : V → ℤ
  counter : ℤ
  stack : List V
  /-- The components that are finished. -/
  comps : List (List V)

namespace Search

/-- Nothing has been visited. -/
def start (V : Type*) : Search V := ⟨∅, fun _ => -1, 0, [], []⟩

open Classical in
/-- The search comes to a new vertex. -/
noncomputable def enter (S : Search V) (v : V) : Search V where
  visited := insert v S.visited
  number := Function.update S.number v S.counter
  counter := S.counter + 1
  stack := v :: S.stack
  comps := S.comps

/-- The entries `c` on top of the stack `rest` become a component. -/
def cut (S : Search V) (c rest : List V) : Search V :=
  { S with stack := rest, comps := S.comps ++ [c] }

/-- What holds of a search that stands at the end of a path, given last vertex first. -/
structure Inv (E : V → V → Prop) (path : List V) (S : Search V) : Prop where
  nodup : (S.stack ++ S.comps.flatten).Nodup
  visited_iff : ∀ v, v ∈ S.visited ↔ v ∈ S.stack ∨ v ∈ S.comps.flatten
  lt_counter : ∀ v ∈ S.visited, S.number v < S.counter
  sorted : S.stack.Pairwise fun a b => S.number b < S.number a
  path_sorted : path.Pairwise fun a b => S.number b < S.number a
  path_subset : ∀ x ∈ path, x ∈ S.stack
  explored : ∀ u ∈ S.visited, u ∉ path → ∀ v, E u v → v ∈ S.visited
  leads : ∀ y ∈ S.stack, ∃ x ∈ path, S.number x ≤ S.number y ∧ ReflTransGen E y x
  reaches : ∀ x ∈ path, ∀ y ∈ S.stack, S.number x ≤ S.number y → ReflTransGen E x y
  closed : ∀ u ∈ S.comps.flatten, ∀ v, E u v → v ∈ S.comps.flatten
  connected : ∀ c ∈ S.comps, ∀ u ∈ c, ∀ v, v ∈ c ↔ Connected E u v
  order : S.comps.Pairwise fun c d => ∀ u ∈ c, ∀ v ∈ d, ¬ E u v
  nonempty : ∀ c ∈ S.comps, c ≠ []

variable {E : V → V → Prop} {S S' S'' : Search V} {path : List V} {v : V}

theorem inv_start (E : V → V → Prop) : Inv E [] (start V) where
  nodup := List.nodup_nil
  visited_iff := fun v => by simp [start]
  lt_counter := fun v hv => absurd hv (by simp [start])
  sorted := .nil
  path_sorted := .nil
  path_subset := fun x hx => absurd hx (by simp)
  explored := fun u hu => absurd hu (by simp [start])
  leads := fun y hy => absurd hy (by simp [start])
  reaches := fun x hx => absurd hx (by simp)
  closed := fun u hu => absurd hu (by simp [start])
  connected := fun c hc => absurd hc (by simp [start])
  order := .nil
  nonempty := fun c hc => absurd hc (by simp [start])

/-! ## Coming to a vertex -/

theorem mem_visited (h : Inv E path S) {u : V} (hu : u ∈ S.stack) : u ∈ S.visited :=
  (h.visited_iff u).mpr (.inl hu)

theorem enter_number_self (S : Search V) (v : V) : (S.enter v).number v = S.counter := by
  simp [enter]

theorem enter_number_of_mem (hv : v ∉ S.visited) {u : V} (hu : u ∈ S.visited) :
    (S.enter v).number u = S.number u := by
  have hne : u ≠ v := by
    rintro rfl
    exact hv hu
  simp [enter, hne]

/-- **A new vertex that the path leads to.** -/
theorem Inv.enter (h : Inv E path S) (hv : v ∉ S.visited)
    (hpath : ∀ x ∈ path, ReflTransGen E x v) : Inv E (v :: path) (S.enter v) := by
  have hself := S.enter_number_self v
  have hsame : ∀ u ∈ S.stack, (S.enter v).number u = S.number u :=
    fun u hu => enter_number_of_mem hv (mem_visited h hu)
  have hlt : ∀ u ∈ S.stack, (S.enter v).number u < (S.enter v).number v := fun u hu => by
    rw [hself, hsame u hu]
    exact h.lt_counter u (mem_visited h hu)
  have hnot : v ∉ S.stack ++ S.comps.flatten := fun hmem =>
    hv ((h.visited_iff v).mpr (List.mem_append.mp hmem))
  refine
    { nodup := List.nodup_cons.mpr ⟨hnot, h.nodup⟩
      visited_iff := fun u => ?_
      lt_counter := fun u hu => ?_
      sorted := List.pairwise_cons.mpr ⟨hlt, ?_⟩
      path_sorted := List.pairwise_cons.mpr ⟨fun x hx => hlt x (h.path_subset x hx), ?_⟩
      path_subset := fun x hx => ?_
      explored := fun u hu hout w he => ?_
      leads := fun y hy => ?_
      reaches := fun x hx y hy hle => ?_
      closed := h.closed
      connected := h.connected
      order := h.order
      nonempty := h.nonempty }
  · show u ∈ insert v S.visited ↔ u ∈ v :: S.stack ∨ u ∈ S.comps.flatten
    rw [Set.mem_insert_iff, h.visited_iff, List.mem_cons, or_assoc]
  · show (S.enter v).number u < S.counter + 1
    rcases hu with rfl | hu
    · rw [hself]
      exact Int.lt_succ _
    · rw [enter_number_of_mem hv hu]
      exact (h.lt_counter u hu).trans (Int.lt_succ _)
  · refine h.sorted.imp_of_mem fun {a b} ha hb hab => ?_
    rw [hsame a ha, hsame b hb]
    exact hab
  · refine h.path_sorted.imp_of_mem fun {a b} ha hb hab => ?_
    rw [hsame a (h.path_subset a ha), hsame b (h.path_subset b hb)]
    exact hab
  · rcases List.mem_cons.mp hx with rfl | hx
    · exact List.mem_cons_self
    · exact List.mem_cons_of_mem _ (h.path_subset x hx)
  · obtain ⟨hne, hout⟩ := not_or.mp (mt List.mem_cons.mpr hout)
    exact Set.mem_insert_of_mem _ (h.explored u (hu.resolve_left hne) hout w he)
  · rcases List.mem_cons.mp hy with rfl | hy
    · exact ⟨y, List.mem_cons_self, le_refl _, .refl⟩
    · obtain ⟨x, hx, hle, hreach⟩ := h.leads y hy
      refine ⟨x, List.mem_cons_of_mem _ hx, ?_, hreach⟩
      rwa [hsame x (h.path_subset x hx), hsame y hy]
  · rcases List.mem_cons.mp hy with rfl | hy
    · rcases List.mem_cons.mp hx with rfl | hx
      · exact .refl
      · exact hpath x hx
    · rcases List.mem_cons.mp hx with hxv | hx
      · rw [hxv] at hle
        exact absurd (hlt y hy) (not_lt.mpr hle)
      · rw [hsame x (h.path_subset x hx), hsame y hy] at hle
        exact h.reaches x hx y hy hle

/-- The path leads to the heads of the edges out of its last vertex. -/
theorem Inv.reaches_head (h : Inv E (v :: path) S) {w : V} (he : E v w) :
    ∀ x ∈ v :: path, ReflTransGen E x w := by
  intro x hx
  have hle : S.number x ≤ S.number v := by
    rcases List.mem_cons.mp hx with rfl | hx
    · exact le_refl _
    · exact ((List.pairwise_cons.mp h.path_sorted).1 x hx).le
  exact (h.reaches x hx v (h.path_subset v List.mem_cons_self) hle).tail he

/-! ## Going back from a vertex -/

/-- With every edge out of the last vertex looked at, it needs no place on the path. -/
theorem Inv.explored_left (h : Inv E (v :: path) S) (hout : ∀ w, E v w → w ∈ S.visited) :
    ∀ u ∈ S.visited, u ∉ path → ∀ w, E u w → w ∈ S.visited := by
  intro u hu hnot w he
  by_cases huv : u = v
  · subst huv
    exact hout w he
  · exact h.explored u hu (fun hmem => hnot ((List.mem_cons.mp hmem).resolve_left huv)) w he

/-- **The last vertex of the path leads back to an earlier entry**, so it stays on the stack. -/
theorem Inv.leave (h : Inv E (v :: path) S) (hout : ∀ w, E v w → w ∈ S.visited) {y : V}
    (hy : y ∈ S.stack) (hlt : S.number y < S.number v) (hreach : ReflTransGen E v y) :
    Inv E path S where
  nodup := h.nodup
  visited_iff := h.visited_iff
  lt_counter := h.lt_counter
  sorted := h.sorted
  path_sorted := (List.pairwise_cons.mp h.path_sorted).2
  path_subset := fun x hx => h.path_subset x (List.mem_cons_of_mem _ hx)
  explored := h.explored_left hout
  leads := fun z hz => by
    obtain ⟨x, hx, hle, hzx⟩ := h.leads z hz
    rcases List.mem_cons.mp hx with rfl | hx
    · obtain ⟨x', hx', hle', hyx'⟩ := h.leads y hy
      have hne : x' ∈ path := by
        rcases List.mem_cons.mp hx' with rfl | hx'
        · exact absurd hlt (not_lt.mpr hle')
        · exact hx'
      exact ⟨x', hne, hle'.trans (hlt.le.trans hle), (hzx.trans hreach).trans hyx'⟩
    · exact ⟨x, hx, hle, hzx⟩
  reaches := fun x hx => h.reaches x (List.mem_cons_of_mem _ hx)
  closed := h.closed
  connected := h.connected
  order := h.order
  nonempty := h.nonempty

section Cut

variable {seg rest : List V}

/-- Nothing leads out of the finished components. -/
theorem Inv.closed_reach (h : Inv E path S) {a b : V} (ha : a ∈ S.comps.flatten)
    (hab : ReflTransGen E a b) : b ∈ S.comps.flatten := by
  induction hab with
  | refl => exact ha
  | tail _ he ih => exact h.closed _ ih _ he

/-- The entries above a vertex of the stack were visited after it. -/
theorem Inv.number_le (h : Inv E (v :: path) S) (hstack : S.stack = seg ++ v :: rest) :
    ∀ a ∈ seg ++ [v], S.number v ≤ S.number a := by
  have hsorted := h.sorted
  rw [hstack, List.pairwise_append] at hsorted
  intro a ha
  rcases List.mem_append.mp ha with ha | ha
  · exact (hsorted.2.2 a ha v List.mem_cons_self).le
  · rw [List.mem_singleton.mp ha]

/-- The rest of the path lies below its last vertex. -/
theorem Inv.path_rest (h : Inv E (v :: path) S) (hstack : S.stack = seg ++ v :: rest) :
    ∀ x ∈ path, x ∈ rest := by
  intro x hx
  have hlow := (List.pairwise_cons.mp h.path_sorted).1 x hx
  have hmem := h.path_subset x (List.mem_cons_of_mem _ hx)
  rw [hstack, List.append_cons] at hmem
  rcases List.mem_append.mp hmem with hmem | hmem
  · exact absurd hlow (not_lt.mpr (h.number_le hstack x hmem))
  · exact hmem

/-- What the search has not left stays within the entries above and the finished components. -/
theorem Inv.reaches_cut (h : Inv E (v :: path) S) (hstack : S.stack = seg ++ v :: rest)
    (hout : ∀ w, E v w → w ∈ S.visited) (hbelow : ∀ a ∈ seg ++ [v], ∀ b ∈ rest, ¬ E a b) {a b : V}
    (ha : a ∈ seg ++ [v] ∨ a ∈ S.comps.flatten) (hab : ReflTransGen E a b) :
    b ∈ seg ++ [v] ∨ b ∈ S.comps.flatten := by
  induction hab with
  | refl => exact ha
  | @tail b c _ he ih =>
    rcases ih with hb | hb
    · have hmem : b ∈ S.stack := by
        rw [hstack]
        simp only [List.mem_append, List.mem_cons, List.not_mem_nil, or_false] at hb ⊢
        tauto
      have hnot : b ∉ path := fun hpath =>
        absurd ((List.pairwise_cons.mp h.path_sorted).1 b hpath)
          (not_lt.mpr (h.number_le hstack b hb))
      have hc := h.explored_left hout b (mem_visited h hmem) hnot c he
      rcases (h.visited_iff c).mp hc with hc | hc
      · rw [hstack] at hc
        simp only [List.mem_append, List.mem_cons, List.not_mem_nil, or_false] at hc ⊢
        have hnot := hbelow b hb c
        tauto
      · exact .inr hc
    · exact .inr (h.closed b hb c he)

/-- The entries above the last vertex of the path are connected with it. -/
theorem Inv.cut_connected (h : Inv E (v :: path) S) (hstack : S.stack = seg ++ v :: rest)
    (hout : ∀ w, E v w → w ∈ S.visited) (hbelow : ∀ a ∈ seg ++ [v], ∀ b ∈ rest, ¬ E a b) :
    ∀ a ∈ seg ++ [v], Connected E v a := by
  intro a ha
  have hmem : a ∈ S.stack := by
    rw [hstack, List.append_cons]
    exact List.mem_append_left _ ha
  refine ⟨h.reaches v List.mem_cons_self a hmem (h.number_le hstack a ha), ?_⟩
  obtain ⟨x, hx, -, hax⟩ := h.leads a hmem
  rcases List.mem_cons.mp hx with rfl | hx
  · exact hax
  · have hnodup := h.nodup
    rw [hstack, List.append_cons, List.append_assoc, List.nodup_append] at hnodup
    have hxrest := h.path_rest hstack x hx
    rcases h.reaches_cut hstack hout hbelow (.inl ha) hax with hxc | hxc
    · exact absurd rfl (hnodup.2.2 x hxc x (List.mem_append_left _ hxrest))
    · exact absurd rfl ((List.nodup_append.mp hnodup.2.1).2.2 x hxrest x hxc)

/-- **No edge leads from the last vertex of the path and the entries above it to one below**: they
are a component. -/
theorem Inv.cut (h : Inv E (v :: path) S) (hstack : S.stack = seg ++ v :: rest)
    (hout : ∀ w, E v w → w ∈ S.visited) (hbelow : ∀ a ∈ seg ++ [v], ∀ b ∈ rest, ¬ E a b) :
    Inv E path (S.cut (seg ++ [v]) rest) := by
  have hsplit : S.stack = (seg ++ [v]) ++ rest := by rw [hstack, List.append_cons]
  have hnodup := h.nodup
  rw [hsplit, List.append_assoc, List.nodup_append] at hnodup
  obtain ⟨hnodupc, hnodupr, hdisjoint⟩ := hnodup
  have hsorted := h.sorted
  rw [hsplit, List.pairwise_append] at hsorted
  have hvseg : v ∈ seg ++ [v] := List.mem_append_right _ (List.mem_singleton_self v)
  have htov := h.cut_connected hstack hout hbelow
  have hflatten : (S.cut (seg ++ [v]) rest).comps.flatten = S.comps.flatten ++ (seg ++ [v]) := by
    simp [Search.cut]
  refine
    { nodup := ?_
      visited_iff := fun u => ?_
      lt_counter := h.lt_counter
      sorted := hsorted.2.1
      path_sorted := (List.pairwise_cons.mp h.path_sorted).2
      path_subset := h.path_rest hstack
      explored := h.explored_left hout
      leads := fun y hy => ?_
      reaches := fun x hx y hy => h.reaches x (List.mem_cons_of_mem _ hx) y ?_
      closed := fun u hu w he => ?_
      connected := fun c hc u hu w => ?_
      order := ?_
      nonempty := fun c hc => ?_ }
  · rw [hflatten]
    show (rest ++ (S.comps.flatten ++ (seg ++ [v]))).Nodup
    rw [← List.append_assoc, List.nodup_append_comm]
    exact List.nodup_append.mpr ⟨hnodupc, hnodupr, hdisjoint⟩
  · rw [hflatten]
    show u ∈ S.visited ↔ u ∈ rest ∨ u ∈ S.comps.flatten ++ (seg ++ [v])
    rw [h.visited_iff, hsplit, List.mem_append, List.mem_append (s := S.comps.flatten)]
    tauto
  · have hmem : y ∈ S.stack := by
      rw [hsplit]
      exact List.mem_append_right _ hy
    obtain ⟨x, hx, hle, hyx⟩ := h.leads y hmem
    rcases List.mem_cons.mp hx with rfl | hx
    · exact absurd (hsorted.2.2 x hvseg y hy) (not_lt.mpr hle)
    · exact ⟨x, hx, hle, hyx⟩
  · rw [hsplit]
    exact List.mem_append_right _ hy
  · rw [hflatten, List.mem_append] at hu ⊢
    exact (h.reaches_cut hstack hout hbelow hu.symm (.single he)).symm
  · rcases List.mem_append.mp hc with hc | hc
    · exact h.connected c hc u hu w
    · obtain rfl := List.mem_singleton.mp hc
      obtain ⟨hvu, huv⟩ := htov u hu
      constructor
      · intro hw
        obtain ⟨hvw, hwv⟩ := htov w hw
        exact ⟨huv.trans hvw, hwv.trans hvu⟩
      · rintro ⟨huw, hwu⟩
        refine (h.reaches_cut hstack hout hbelow (.inl hu) huw).resolve_right fun hw => ?_
        exact hdisjoint u hu u (List.mem_append_right _ (h.closed_reach hw hwu)) rfl
  · refine List.pairwise_append.mpr ⟨h.order, List.pairwise_singleton _ _, ?_⟩
    intro c hc d hd u hu w hw he
    obtain rfl := List.mem_singleton.mp hd
    have hmem := h.closed u (List.mem_flatten.mpr ⟨c, hc, hu⟩) w he
    exact hdisjoint w hw w (List.mem_append_right _ hmem) rfl
  · rcases List.mem_append.mp hc with hc | hc
    · exact h.nonempty c hc
    · rw [List.mem_singleton.mp hc]
      simp

end Cut

/-- **Where the search ends, its components are all there are.** -/
theorem Inv.isComponents (h : Inv E [] S) : IsComponents E S.visited S.comps where
  nodup := (List.nodup_append.mp h.nodup).2.1
  mem_iff := fun v => by
    have hempty : v ∉ S.stack := fun hv => by
      obtain ⟨x, hx, -⟩ := h.leads v hv
      exact absurd hx (by simp)
    rw [h.visited_iff, or_iff_right hempty]
  connected := h.connected
  order := h.order

theorem length_le_length_flatten {comps : List (List V)} (h : ∀ c ∈ comps, c ≠ []) :
    comps.length ≤ comps.flatten.length := by
  induction comps with
  | nil => exact le_refl _
  | cons c comps ih =>
    have hc : 0 < c.length := List.length_pos_iff.mpr (h c List.mem_cons_self)
    have hcomps := ih fun d hd => h d (List.mem_cons_of_mem _ hd)
    rw [List.flatten_cons, List.length_append, List.length_cons]
    omega

/-- The stack and the components have no more entries than there are vertices. -/
theorem Inv.length_le (h : Inv E path S) {vertices : Finset V} (hsub : S.visited ⊆ vertices) :
    S.stack.length + S.comps.length ≤ vertices.card ∧ ∀ c ∈ S.comps, c.length ≤ vertices.card := by
  have hcard := length_le_card_of_nodup h.nodup fun v hv =>
    hsub ((h.visited_iff v).mpr (List.mem_append.mp hv))
  rw [List.length_append] at hcard
  have hcomps := length_le_length_flatten h.nonempty
  refine ⟨by omega, fun c hc => ?_⟩
  have hc := (List.sublist_flatten_of_mem hc).length_le
  omega

/-! ## What a part of the search leaves as it was -/

/-- Between two moments the search only goes on: what was numbered keeps its number, and the
stack gets new entries on top. -/
structure Grown (S S' : Search V) : Prop where
  visited : S.visited ⊆ S'.visited
  number : ∀ u ∈ S.visited, S'.number u = S.number u
  counter : S.counter ≤ S'.counter
  stack : ∃ seg, S'.stack = seg ++ S.stack ∧ ∀ a ∈ seg, a ∈ S'.visited ∧ S.counter ≤ S'.number a

theorem Grown.refl (S : Search V) : Grown S S :=
  ⟨subset_refl _, fun _ _ => rfl, le_refl _, [], rfl, by simp⟩

theorem Grown.trans (h : Grown S S') (h' : Grown S' S'') : Grown S S'' := by
  obtain ⟨seg, hseg, hnew⟩ := h.stack
  obtain ⟨seg', hseg', hnew'⟩ := h'.stack
  refine ⟨h.visited.trans h'.visited, fun u hu => ?_, h.counter.trans h'.counter, seg' ++ seg, ?_,
    fun a ha => ?_⟩
  · rw [h'.number u (h.visited hu), h.number u hu]
  · rw [hseg', hseg, List.append_assoc]
  · rcases List.mem_append.mp ha with ha | ha
    · exact ⟨(hnew' a ha).1, h.counter.trans (hnew' a ha).2⟩
    · obtain ⟨hvisited, hle⟩ := hnew a ha
      rw [h'.number a hvisited]
      exact ⟨h'.visited hvisited, hle⟩

theorem grown_enter (hv : v ∉ S.visited) : Grown S (S.enter v) where
  visited := Set.subset_insert _ _
  number := fun _ hu => enter_number_of_mem hv hu
  counter := (Int.lt_succ _).le
  stack := by
    refine ⟨[v], rfl, fun a ha => ?_⟩
    rw [List.mem_singleton.mp ha, enter_number_self]
    exact ⟨Set.mem_insert _ _, le_refl _⟩

/-- The entries that were there are those with the smaller numbers. -/
theorem Grown.mem_stack (h : Grown S S') {a : V} (ha : a ∈ S'.stack)
    (hlt : S'.number a < S.counter) : a ∈ S.stack := by
  obtain ⟨seg, hseg, hnew⟩ := h.stack
  rw [hseg] at ha
  rcases List.mem_append.mp ha with ha | ha
  · exact absurd hlt (not_lt.mpr (hnew a ha).2)
  · exact ha

/-- A finished call on `v`, with the low link it leaves: below the old counter that is the number
of an old entry that `v` leads to, and no edge leads from a new entry to an old one further
down. -/
structure Explored (E : V → V → Prop) (S S' : Search V) (v : V) (low : ℤ) : Prop where
  grown : Grown S S'
  visited : v ∈ S'.visited
  edges : ∀ a ∈ S'.stack, S.counter ≤ S'.number a → ∀ b ∈ S.stack, E a b → low ≤ S.number b
  leads : low < S.counter → ∃ y ∈ S.stack, S.number y = low ∧ ReflTransGen E v y

/-! ## Low links -/

/-- The low link of a vertex of the stack with the edges to `todo` still to be followed. -/
structure LowLink (E : V → V → Prop) (S : Search V) (v : V) (todo : List V) (low : ℤ) : Prop where
  le : low ≤ S.number v
  visited : ∀ w, E v w → w ∉ todo → w ∈ S.visited
  leads : low < S.number v → ∃ y ∈ S.stack, S.number y = low ∧ ReflTransGen E v y
  edges : ∀ a ∈ S.stack, S.number v ≤ S.number a → ∀ b ∈ S.stack, S.number b < S.number v →
    E a b → (a = v → b ∉ todo) → low ≤ S.number b

variable {todo : List V} {low low' : ℤ} {t : V}

/-- The low link a vertex starts with is its number. -/
theorem LowLink.start (h : Inv E (v :: path) (S.enter v)) (htodo : ∀ w, E v w → w ∈ todo) :
    LowLink E (S.enter v) v todo S.counter := by
  refine ⟨(S.enter_number_self v).ge, fun w he hw => absurd (htodo w he) hw, fun hlt => ?_, ?_⟩
  · rw [S.enter_number_self] at hlt
    exact absurd hlt (lt_irrefl _)
  · intro a ha hle b _ _ he hnot
    obtain rfl : a = v := by
      by_contra hne
      have hmem := (List.mem_cons.mp ha).resolve_left hne
      exact absurd ((List.pairwise_cons.mp h.sorted).1 a hmem) (not_lt.mpr hle)
    exact absurd (htodo b he) (hnot rfl)

/-- An edge to a vertex that is off the stack, or not below the low link. -/
theorem LowLink.skip (h : LowLink E S v (t :: todo) low) (ht : t ∈ S.visited)
    (hnot : t ∈ S.stack → low ≤ S.number t) : LowLink E S v todo low where
  le := h.le
  visited := fun w he hw => by
    by_cases hwt : w = t
    · rwa [hwt]
    · exact h.visited w he fun hmem => hw ((List.mem_cons.mp hmem).resolve_left hwt)
  leads := h.leads
  edges := fun a ha hle b hb hlt he hb' => by
    by_cases hbt : b = t
    · subst hbt
      exact hnot hb
    · refine h.edges a ha hle b hb hlt he fun hav hmem => hb' hav ?_
      exact (List.mem_cons.mp hmem).resolve_left hbt

/-- An edge to an entry of the stack below the low link. -/
theorem LowLink.lower (h : LowLink E S v (t :: todo) low) (he : E v t) (ht : t ∈ S.stack)
    (hvisited : t ∈ S.visited) (hlt : S.number t < low) : LowLink E S v todo (S.number t) where
  le := hlt.le.trans h.le
  visited := fun w he hw => by
    by_cases hwt : w = t
    · rwa [hwt]
    · exact h.visited w he fun hmem => hw ((List.mem_cons.mp hmem).resolve_left hwt)
  leads := fun _ => ⟨t, ht, rfl, .single he⟩
  edges := fun a ha hle b hb hlt' he' hb' => by
    by_cases hbt : b = t
    · rw [hbt]
    · refine hlt.le.trans (h.edges a ha hle b hb hlt' he' fun hav hmem => hb' hav ?_)
      exact (List.mem_cons.mp hmem).resolve_left hbt

/-- An edge to a vertex that the search went on to from here. -/
theorem LowLink.child (h : LowLink E S v (t :: todo) low) (hinv : Inv E path S) (hv : v ∈ S.stack)
    (he : E v t) (ht : t ∉ S.visited) (hcall : Explored E S S' t low') :
    LowLink E S' v todo (min low low') := by
  have hvisited : v ∈ S.visited := mem_visited hinv hv
  have hnum := hcall.grown.number v hvisited
  have hcounter := hinv.lt_counter v hvisited
  obtain ⟨seg, hseg, hnew⟩ := hcall.grown.stack
  have hold : ∀ y ∈ S.stack, y ∈ S'.stack ∧ S'.number y = S.number y := fun y hy => by
    refine ⟨?_, hcall.grown.number y (mem_visited hinv hy)⟩
    rw [hseg]
    exact List.mem_append_right _ hy
  refine ⟨?_, fun w he' hw => ?_, fun hlt => ?_, fun a ha hle b hb hlt he' hb' => ?_⟩
  · rw [hnum]
    exact (min_le_left _ _).trans h.le
  · by_cases hwt : w = t
    · rw [hwt]
      exact hcall.visited
    · exact hcall.grown.visited
        (h.visited w he' fun hmem => hw ((List.mem_cons.mp hmem).resolve_left hwt))
  · rw [hnum] at hlt
    rcases le_or_gt low low' with hcase | hcase
    · rw [min_eq_left hcase] at hlt ⊢
      obtain ⟨y, hy, hny, hreach⟩ := h.leads hlt
      exact ⟨y, (hold y hy).1, (hold y hy).2.trans hny, hreach⟩
    · rw [min_eq_right hcase.le] at hlt ⊢
      obtain ⟨y, hy, hny, hreach⟩ := hcall.leads (hlt.trans hcounter)
      exact ⟨y, (hold y hy).1, (hold y hy).2.trans hny, hreach.head he⟩
  · rw [hnum] at hle hlt
    have hbold : b ∈ S.stack := hcall.grown.mem_stack hb (hlt.trans hcounter)
    rw [(hold b hbold).2] at hlt ⊢
    rcases lt_or_ge (S'.number a) S.counter with hcase | hcase
    · have haold := hcall.grown.mem_stack ha hcase
      rw [(hold a haold).2] at hle
      refine (min_le_left _ _).trans (h.edges a haold hle b hbold hlt he' fun hav hmem => ?_)
      refine hb' hav ((List.mem_cons.mp hmem).resolve_left fun hbt => ht ?_)
      rw [← hbt]
      exact mem_visited hinv hbold
    · exact (min_le_right _ _).trans (hcall.edges a ha hcase b hbold he')

/-! ## The end of a call -/

/-- The call on `v` ends with the entries above `v` left on the stack. -/
theorem LowLink.explored_leave (h : LowLink E S' v [] low) (hinv : Inv E path S)
    (hv : v ∉ S.visited) (hgrown : Grown (S.enter v) S') : Explored E S S' v low := by
  have hnum : S'.number v = S.counter := by
    rw [hgrown.number v (Set.mem_insert _ _), enter_number_self]
  have hall := (grown_enter hv).trans hgrown
  refine ⟨hall, hgrown.visited (Set.mem_insert _ _), fun a ha hle b hb he => ?_, fun hlt => ?_⟩
  · have hvisited := mem_visited hinv hb
    obtain ⟨seg, hseg, -⟩ := hall.stack
    have hb' : b ∈ S'.stack := by
      rw [hseg]
      exact List.mem_append_right _ hb
    rw [← hall.number b hvisited]
    refine h.edges a ha (hnum.trans_le hle) b hb' ?_ he fun _ => List.not_mem_nil
    rw [hall.number b hvisited, hnum]
    exact hinv.lt_counter b hvisited
  · rw [← hnum] at hlt
    obtain ⟨y, hy, hny, hreach⟩ := h.leads hlt
    have hold : y ∈ S.stack := hall.mem_stack hy (by rw [hny, ← hnum]; exact hlt)
    exact ⟨y, hold, by rw [← hny, hall.number y (mem_visited hinv hold)], hreach⟩

/-- Without an entry further down to lead back to, the call on `v` has the component of `v` on top
of the stack. -/
theorem LowLink.inv_cut {seg : List V} (h : LowLink E S' v [] (S'.number v))
    (hinv : Inv E (v :: path) S') (hstack : S'.stack = seg ++ v :: S.stack) :
    Inv E path (S'.cut (seg ++ [v]) S.stack) := by
  have hsorted := hinv.sorted
  rw [hstack, List.pairwise_append] at hsorted
  obtain ⟨-, hlow, hhigh⟩ := hsorted
  refine hinv.cut hstack (fun w he => h.visited w he List.not_mem_nil) fun a ha b hb he => ?_
  have hlt := (List.pairwise_cons.mp hlow).1 b hb
  have hmem : a ∈ S'.stack ∧ S'.number v ≤ S'.number a := by
    rw [hstack]
    rcases List.mem_append.mp ha with ha | ha
    · exact ⟨List.mem_append_left _ ha, (hhigh a ha v List.mem_cons_self).le⟩
    · rw [List.mem_singleton.mp ha]
      exact ⟨List.mem_append_right _ List.mem_cons_self, le_refl _⟩
  have hb' : b ∈ S'.stack := by
    rw [hstack]
    exact List.mem_append_right _ (List.mem_cons_of_mem _ hb)
  have hle := h.edges a hmem.1 hmem.2 b hb' hlt he fun _ => List.not_mem_nil
  exact absurd hlt (not_lt.mpr hle)

/-- The call on `v` ends with the component of `v` cut off. -/
theorem explored_cut (hinv : Inv E path S) (hv : v ∉ S.visited) (hgrown : Grown (S.enter v) S')
    (c : List V) : Explored E S (S'.cut c S.stack) v S.counter := by
  have hall := (grown_enter hv).trans hgrown
  refine ⟨⟨hall.visited, hall.number, hall.counter, [], rfl, by simp⟩,
    hgrown.visited (Set.mem_insert _ _), fun a ha hle => ?_, fun hlt => absurd hlt (lt_irrefl _)⟩
  have hvisited : a ∈ S.visited := mem_visited hinv ha
  have hnum : S'.number a = S.number a := hall.number a hvisited
  have hle' : S.counter ≤ S'.number a := hle
  rw [hnum] at hle'
  exact absurd (hinv.lt_counter a hvisited) (not_lt.mpr hle')

end Search

end Foundation
