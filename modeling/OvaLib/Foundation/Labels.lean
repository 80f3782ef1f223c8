import Mathlib.Algebra.BigOperators.Group.Finset.Basic
import Mathlib.Algebra.Order.BigOperators.Group.Finset
import OvaLib.Foundation.Walk

/-!
# Labels and relaxation

What the shortest-path algorithms share. They keep a label for each vertex, the weight of some walk
to it, and relax edges one at a time. Two things are followed: which edges may still improve a
label, and how often that can happen.

## What is kept, and what gets better

A label is the weight of a walk at all times, whatever is relaxed in whichever order, so a label is
never too small. That it is not too large is shown in the end only: when no edge improves a label,
the labels are the distances. An algorithm differs from another in how it makes sure of that. With a
queue of the labels that changed, `Covered` says that every vertex has its label in the queue or
edges that improve nothing. With passes over all edges, `AtMostWalks` says that after `k` passes no
label is above the weight of a walk of `k` edges.

A queue becomes empty because labels improve only finitely often. Without negative cycles in reach a
label is the weight of a path, of which there are finitely many, and `rank` counts how many of their
weights are still below it.

## Main results

* `Labels.relax`, `PathLabels.relax` — relaxing an edge keeps labels the weights of walks, and
  without negative cycles of paths
* `Covered.step` — relaxing the edges of a vertex one by one, with a queue of the labels that
  changed
* `sum_rank_relax` — a label improves only finitely often
* `AtMostWalks.relaxAll` — one pass over all edges takes one more edge of each walk into account
-/

namespace Foundation

/-- A finite label of the head comes from a finite label of the tail and a real edge. -/
theorem exists_of_add_eq {R : Type*} [Add R] {a c : WithTop R} {x : R}
    (h : a + c = (x : WithTop R)) :
    ∃ y z : R, a = y ∧ c = z ∧ x = y + z := by
  obtain ⟨y, z, hy, hz, hyz⟩ := WithTop.add_eq_coe.mp h
  exact ⟨y, z, hy.symm, hz.symm, hyz.symm⟩

section Ranks

variable {V R : Type*} [LinearOrder R]

/-! ## Ranks -/

/-- How many of the candidates are still below a label. -/
def rank (candidates : Finset R) (d : V → WithTop R) (v : V) : ℕ :=
  (candidates.filter fun x : R => (x : WithTop R) < d v).card

theorem rank_le {candidates : Finset R} {d d' : V → WithTop R} {v : V} (h : d' v ≤ d v) :
    rank candidates d' v ≤ rank candidates d v := by
  refine Finset.card_le_card fun x hx => ?_
  rw [Finset.mem_filter] at hx ⊢
  exact ⟨hx.1, hx.2.trans_le h⟩

theorem rank_lt {candidates : Finset R} {d d' : V → WithTop R} {v : V} {x : R} (hx : x ∈ candidates)
    (hd' : d' v = x) (h : d' v < d v) : rank candidates d' v < rank candidates d v := by
  refine Finset.card_lt_card ((Finset.ssubset_iff_of_subset fun y hy => ?_).mpr ⟨x, ?_, ?_⟩)
  · rw [Finset.mem_filter] at hy ⊢
    exact ⟨hy.1, hy.2.trans h⟩
  · rw [Finset.mem_filter, ← hd']
    exact ⟨hx, h⟩
  · rw [Finset.mem_filter, hd']
    exact fun hmem => lt_irrefl _ hmem.2

end Ranks

/-! ## Labels -/

variable {V R : Type*} [AddCommGroup R] [LinearOrder R]
variable {w : V → V → WithTop R} {s u v t : V} {d : V → WithTop R} {c : WithTop R}

/-- The labels are weights of walks from the source. -/
structure Labels (w : V → V → WithTop R) (s : V) (d : V → WithTop R) : Prop where
  source_le : d s ≤ 0
  /-- Every label that is not `⊤` is the weight of a walk. -/
  walk : ∀ v (x : R), d v = x → ∃ n, Walk w s n v x

theorem Labels.isDistance [IsOrderedAddMonoid R] (h : Labels w s d)
    (hrelaxed : ∀ u, Relaxed w d u) : IsDistance w s d :=
  isDistance_of_relaxed h.source_le h.walk hrelaxed

theorem Labels.not_negativeCycle [IsOrderedAddMonoid R] (h : Labels w s d)
    (hrelaxed : ∀ u, Relaxed w d u) : ¬ NegativeCycle w s :=
  not_negativeCycle_of_relaxed h.source_le hrelaxed

/-- The labels are weights of paths, on which no label is above the weight up to its vertex. -/
def PathLabels (w : V → V → WithTop R) (s : V) (d : V → WithTop R) : Prop :=
  ∀ v (x : R), d v = x → ∃ l, Path w s (fun y a => d y ≤ a) l v x

/-- A label is the weight of a walk with fewer edges than there are vertices. -/
theorem PathLabels.mem_shortWeights (h : PathLabels w s d) {vertices : Finset V}
    (hw : ∀ u v, w u v ≠ ⊤ → v ∈ vertices) (hs : s ∈ vertices) {x : R} (hx : d v = x) :
    x ∈ shortWeights w s vertices.card := by
  obtain ⟨l, hpath⟩ := h v x hx
  obtain ⟨n, hn, hwalk⟩ := hpath.walk
  have hle := hpath.length_le hw hs
  exact ⟨n, by omega, v, hwalk⟩

/-! ## Relaxing -/

variable [DecidableEq V]

/-- Relaxing an edge of weight `c` from `v` to `t`. -/
def relax (d : V → WithTop R) (v t : V) (c : WithTop R) : V → WithTop R :=
  if d v + c < d t then Function.update d t (d v + c) else d

theorem relax_of_lt (h : d v + c < d t) : relax d v t c = Function.update d t (d v + c) := if_pos h

theorem relax_of_not_lt (h : ¬ d v + c < d t) : relax d v t c = d := if_neg h

theorem relax_le (d : V → WithTop R) (v t : V) (c : WithTop R) (x : V) :
    relax d v t c x ≤ d x := by
  by_cases h : d v + c < d t
  · rw [relax_of_lt h]
    by_cases hx : x = t
    · subst hx
      rw [Function.update_self]
      exact h.le
    · rw [Function.update_of_ne hx]
  · rw [relax_of_not_lt h]

/-- After relaxing, the head is no worse than the tail was with the edge. -/
theorem relax_head_le (d : V → WithTop R) (v t : V) (c : WithTop R) :
    relax d v t c t ≤ d v + c := by
  by_cases h : d v + c < d t
  · rw [relax_of_lt h, Function.update_self]
  · rw [relax_of_not_lt h]
    exact not_lt.mp h

/-- Relaxing is taking the smaller of the two labels. -/
theorem relax_self (d : V → WithTop R) (v t : V) (c : WithTop R) :
    relax d v t c t = min (d t) (d v + c) := by
  by_cases h : d v + c < d t
  · rw [relax_of_lt h, Function.update_self, min_eq_right h.le]
  · rw [relax_of_not_lt h, min_eq_left (not_lt.mp h)]

theorem relax_of_ne {x : V} (hx : x ≠ t) (d : V → WithTop R) (v : V) (c : WithTop R) :
    relax d v t c x = d x := by
  by_cases h : d v + c < d t
  · rw [relax_of_lt h, Function.update_of_ne hx]
  · rw [relax_of_not_lt h]

/-- Relaxing the edges `es` of a vertex without a loop, one after another: the heads get the smaller
of their two labels, in whatever order the edges come and however often. -/
theorem foldl_relax (hloop : w v v = ⊤) {es : List (V × WithTop R)}
    (hes : ∀ e ∈ es, ∀ z : R, e.2 = z → w v e.1 = z) (x : V) :
    es.foldl (fun d e => relax d v e.1 e.2) d x =
      if ∃ e ∈ es, e.1 = x ∧ e.2 ≠ ⊤ then min (d x) (d v + w v x) else d x := by
  induction es generalizing d with
  | nil => simp
  | cons e es ih =>
    obtain ⟨t, c⟩ := e
    have hrest : ∀ e ∈ es, ∀ z : R, e.2 = z → w v e.1 = z := fun e he =>
      hes e (List.mem_cons_of_mem _ he)
    rw [List.foldl_cons, ih hrest]
    simp only [List.exists_mem_cons_iff]
    by_cases hc : c = ⊤
    · -- an edge without a weight improves no label
      have hsame : relax d v t c = d := relax_of_not_lt (by simp [hc])
      rw [hsame]
      exact if_congr (by simp [hc]) rfl rfl
    · obtain ⟨z, rfl⟩ := WithTop.ne_top_iff_exists.mp hc
      have hz : w v t = z := hes (t, z) List.mem_cons_self z rfl
      have hvt : v ≠ t := by
        rintro rfl
        rw [hloop] at hz
        exact WithTop.top_ne_coe hz
      rw [relax_of_ne hvt]
      by_cases hx : t = x
      · subst hx
        rw [relax_self, hz]
        simp
      · rw [relax_of_ne (Ne.symm hx)]
        exact if_congr (by simp [hx]) rfl rfl

theorem Labels.relax (h : Labels w s d) (hc : ∀ z : R, c = z → w v t = z) :
    Labels w s (relax d v t c) where
  source_le := (relax_le _ _ _ _ _).trans h.source_le
  walk := fun x y hy => by
    by_cases hlt : d v + c < d t
    · rw [relax_of_lt hlt] at hy
      by_cases hx : x = t
      · subst hx
        rw [Function.update_self] at hy
        obtain ⟨a, z, ha, hz, rfl⟩ := exists_of_add_eq hy
        obtain ⟨n, hwalk⟩ := h.walk v a ha
        exact ⟨n + 1, hwalk.snoc (hc z hz)⟩
      · rw [Function.update_of_ne hx] at hy
        exact h.walk x y hy
    · rw [relax_of_not_lt hlt] at hy
      exact h.walk x y hy

/-- Without negative cycles in reach, an edge that improves a label does not close a cycle. -/
theorem PathLabels.relax [IsOrderedAddMonoid R] (h : PathLabels w s d)
    (hcycle : ¬ NegativeCycle w s)
    (hc : ∀ z : R, c = z → w v t = z) : PathLabels w s (relax d v t c) := by
  by_cases hlt : d v + c < d t
  · have hmono : ∀ y (a : R), d y ≤ a → Foundation.relax d v t c y ≤ a := fun y a hy =>
      (relax_le _ _ _ _ _).trans hy
    intro x y hy
    by_cases hx : x = t
    · subst hx
      rw [relax_of_lt hlt, Function.update_self] at hy
      obtain ⟨a, z, ha, hz, rfl⟩ := exists_of_add_eq hy
      obtain ⟨l, hpath⟩ := h v a ha
      have hnew : x ∉ l := by
        intro hmem
        obtain ⟨l', b, hpath', hb⟩ := hpath.le_of_mem hcycle (hc z hz) hmem
        have hle : d x ≤ ((a + z : R) : WithTop R) :=
          hpath'.bound.trans (WithTop.coe_le_coe.mpr hb)
        rw [← hy] at hle
        exact absurd hle (not_le.mpr hlt)
      refine ⟨x :: l, (hpath.mono hmono).snoc (hc z hz) hnew ?_⟩
      rw [relax_of_lt hlt, Function.update_self, hy]
    · rw [relax_of_lt hlt, Function.update_of_ne hx] at hy
      obtain ⟨l, hpath⟩ := h x y hy
      exact ⟨l, hpath.mono hmono⟩
  · rw [relax_of_not_lt hlt]
    exact h

/-! ## How often a relaxed label improves -/

/-- An improvement to one of the candidates uses it up. -/
theorem sum_rank_relax [IsOrderedAddMonoid R] (candidates : Finset R) {vertices : Finset V}
    (ht : t ∈ vertices)
    (hlt : d v + c < d t) (hmem : ∀ x : R, d v + c = x → x ∈ candidates) :
    ∑ x ∈ vertices, rank candidates (relax d v t c) x < ∑ x ∈ vertices, rank candidates d x := by
  refine Finset.sum_lt_sum (fun x _ => rank_le (relax_le _ _ _ _ _)) ⟨t, ht, ?_⟩
  obtain ⟨x, hx⟩ := WithTop.ne_top_iff_exists.mp (ne_top_of_lt hlt)
  have hlabel : relax d v t c t = x := by rw [relax_of_lt hlt, Function.update_self, hx]
  refine rank_lt (hmem x hx.symm) hlabel ?_
  rw [hlabel, hx]
  exact hlt

/-! ## Which edges may still improve a label

While the edges of a vertex are being relaxed, the rest of them is named. -/

/-- Every vertex has its label in the queue, or its edges improve no label; but the edges `es` of
`v` are still to be looked at. -/
def Covered (w : V → V → WithTop R) (queued : V → WithTop R → Prop) (d : V → WithTop R) (v : V)
    (es : List (V × WithTop R)) : Prop :=
  ∀ u, queued u (d u) ∨ ∀ t (c : R), w u t = c → (u = v ∧ (t, (c : WithTop R)) ∈ es) ∨ d t ≤ d u + c

variable {queued queued' : V → WithTop R → Prop} {es : List (V × WithTop R)}

/-- Relaxing the next edge of `v`: when it improves the label of its head, the new label goes into
the queue. -/
theorem Covered.step (h : Covered w queued d v ((t, c) :: es))
    (hkeep : ∀ u x, queued u x → queued' u x) (hnew : d v + c < d t → queued' t (d v + c)) :
    Covered w queued' (relax d v t c) v es := by
  intro u
  by_cases hlt : d v + c < d t
  · rw [relax_of_lt hlt]
    by_cases hu : u = t
    · subst hu
      rw [Function.update_self]
      exact Or.inl (hnew hlt)
    · rw [Function.update_of_ne hu]
      refine (h u).imp (hkeep u _) fun hedges t' c' hc' => ?_
      rcases hedges t' c' hc' with ⟨rfl, hmem⟩ | hle
      · rcases List.mem_cons.mp hmem with heq | hmem
        · obtain ⟨rfl, rfl⟩ := Prod.mk.inj heq
          right
          rw [Function.update_self]
        · exact Or.inl ⟨rfl, hmem⟩
      · right
        have hrelax := relax_le d v t c t'
        rw [relax_of_lt hlt] at hrelax
        exact hrelax.trans hle
  · rw [relax_of_not_lt hlt]
    refine (h u).imp (hkeep u _) fun hedges t' c' hc' => ?_
    rcases hedges t' c' hc' with ⟨rfl, hmem⟩ | hle
    · rcases List.mem_cons.mp hmem with heq | hmem
      · obtain ⟨rfl, rfl⟩ := Prod.mk.inj heq
        exact Or.inr (not_lt.mp hlt)
      · exact Or.inl ⟨rfl, hmem⟩
    · exact Or.inr hle

/-- A vertex is taken from the queue: its edges are to be looked at. -/
theorem Covered.pop {v' : V} (h : Covered w queued d v' []) (hes : ∀ t (c : R), w v t = c →
    (t, (c : WithTop R)) ∈ es) (hkeep : ∀ u x, queued u x → queued' u x ∨ u = v) :
    Covered w queued' d v es := by
  intro u
  by_cases hu : u = v
  · subst hu
    exact Or.inr fun t c hc => Or.inl ⟨rfl, hes t c hc⟩
  · refine (h u).imp (fun hq => (hkeep u _ hq).resolve_right hu) fun hedges t c hc => ?_
    rcases hedges t c hc with ⟨-, hmem⟩ | hle
    · exact absurd hmem List.not_mem_nil
    · exact Or.inr hle

omit [DecidableEq V] in
/-- An entry that is not the label of its vertex is dropped from the queue. -/
theorem Covered.drop (h : Covered w queued d v es)
    (hkeep : ∀ u, queued u (d u) → queued' u (d u)) : Covered w queued' d v es :=
  fun u => (h u).imp_left (hkeep u)

omit [DecidableEq V] in
/-- With nothing in the queue and nothing left to look at, no edge improves a label. -/
theorem Covered.relaxed (h : Covered w queued d v []) (hempty : ∀ u x, ¬ queued u x) (u : V) :
    Relaxed w d u := by
  intro t c hc
  rcases h u with hq | hedges
  · exact absurd hq (hempty u _)
  · rcases hedges t c hc with ⟨-, hmem⟩ | hle
    · exact absurd hmem List.not_mem_nil
    · exact hle

/-! ## Passes over the edges -/

/-- Relaxing a list of edges, each with its tail, head and weight. -/
def relaxAll (d : V → WithTop R) (es : List (V × V × WithTop R)) : V → WithTop R :=
  es.foldl (fun d e => relax d e.1 e.2.1 e.2.2) d

theorem relaxAll_le (es : List (V × V × WithTop R)) :
    ∀ (d : V → WithTop R) (x : V), relaxAll d es x ≤ d x := by
  induction es with
  | nil => exact fun d x => le_rfl
  | cons e es ih => exact fun d x => (ih _ x).trans (relax_le _ _ _ _ x)

theorem relaxAll_head_le [IsOrderedAddMonoid R] {es : List (V × V × WithTop R)} :
    ∀ (d : V → WithTop R), (u, t, c) ∈ es → relaxAll d es t ≤ d u + c := by
  induction es with
  | nil => exact fun d h => absurd h List.not_mem_nil
  | cons e es ih =>
    intro d h
    rcases List.mem_cons.mp h with rfl | h
    · exact (relaxAll_le es _ t).trans (relax_head_le d u t c)
    · calc relaxAll d (e :: es) t ≤ relax d e.1 e.2.1 e.2.2 u + c := ih _ h
        _ ≤ d u + c := by
          gcongr
          exact relax_le _ _ _ _ _

theorem Labels.relaxAll {es : List (V × V × WithTop R)} :
    ∀ {d : V → WithTop R}, Labels w s d →
      (∀ u t (z : R), (u, t, (z : WithTop R)) ∈ es → w u t = z) →
      Labels w s (Foundation.relaxAll d es) := by
  induction es with
  | nil => exact fun h _ => h
  | cons e es ih =>
    intro d h hes
    refine ih (h.relax fun z hz => ?_) fun u t z hmem => hes u t z (List.mem_cons_of_mem _ hmem)
    exact hes _ _ z (by rw [← hz]; exact List.mem_cons_self)

/-- No label is above the weight of a walk of at most `k` edges. -/
def AtMostWalks (w : V → V → WithTop R) (s : V) (k : ℕ) (d : V → WithTop R) : Prop :=
  ∀ n ≤ k, ∀ v x, Walk w s n v x → d v ≤ x

/-- A pass over all edges takes one more edge of each walk into account. -/
theorem AtMostWalks.relaxAll [IsOrderedAddMonoid R] {k : ℕ} {es : List (V × V × WithTop R)}
    (h : AtMostWalks w s k d)
    (hes : ∀ u t (z : R), w u t = z → (u, t, (z : WithTop R)) ∈ es) :
    AtMostWalks w s (k + 1) (Foundation.relaxAll d es) := by
  intro n hn v x hwalk
  cases hwalk with
  | nil => exact (relaxAll_le _ _ _).trans (h 0 (Nat.zero_le _) _ _ .nil)
  | @snoc m u _ y z hwalk hz =>
    calc Foundation.relaxAll d es v ≤ d u + z := relaxAll_head_le d (hes u v z hz)
      _ ≤ y + z := by
        gcongr
        exact h m (by omega) u y hwalk
      _ = ((y + z : R) : WithTop R) := (WithTop.coe_add _ _).symm

omit [DecidableEq V] in
/-- Without negative cycles in reach, the walks with fewer edges than there are vertices decide. -/
theorem AtMostWalks.le [IsOrderedAddMonoid R] {k : ℕ} (vertices : Finset V)
    (h : AtMostWalks w s k d) (hcycle : ¬ NegativeCycle w s)
    (hw : ∀ u v, w u v ≠ ⊤ → v ∈ vertices) (hs : s ∈ vertices) (hk : vertices.card ≤ k + 1) {n : ℕ}
    {x : R} (hwalk : Walk w s n v x) : d v ≤ x := by
  obtain ⟨l, a, hpath, hle⟩ := exists_path_le hcycle hwalk
  have hlen := hpath.length_le hw hs
  obtain ⟨m, hm, hshort⟩ := hpath.walk
  exact (h m (by omega) v a hshort).trans (WithTop.coe_le_coe.mpr hle)

end Foundation
