import Mathlib.Algebra.Order.Group.Defs
import Mathlib.Algebra.Order.Monoid.WithTop
import Mathlib.Data.Set.Finite.Basic
import Mathlib.Data.Set.Finite.Lattice
import Mathlib.Data.Finite.Prod
import Mathlib.Data.Finset.Card
import Mathlib.Data.Int.Interval
import Mathlib.Tactic.Abel
import Mathlib.Tactic.Linarith
import Mathlib.Tactic.Ring
import OvaLib.Foundation.FiniteSet

/-!
# Walks in weighted graphs

A weighted graph is a function from ordered pairs of vertices to weights, with `⊤` for the pairs
that are not edges. A walk has a length and a weight, and a label is a candidate for the least
weight of a walk from a fixed source.

Walks are a relation with the length and the weight as indices, not lists of vertices: what is
proved of them is by induction on the length, and one edge more at the end adds its weight. Paths,
which repeat no vertex, do list their vertices. With finitely many vertices and no negative cycle in
reach a walk can be shortened to a path that is no heavier, so least weights exist; with a negative
cycle in reach some vertex has none. `IsDistance` says that labels are least weights, and is the
specification of the algorithms for shortest paths.

Negative edges and closed walks of weight zero are allowed throughout.

## Main results

* `isDistance_of_relaxed` — labels of walks that no edge can improve are the distances, and no
  negative cycle is in reach
* `exists_path_le` — without negative cycles in reach, a walk is no better than some walk without
  repetition
* `finite_shortWeights` — the walks of bounded length have finitely many weights
* `ncard_shortWeights_le` — how many at most, where the edges weigh integers
-/

namespace Foundation

variable {V R : Type*} [AddCommGroup R]

/-! ## Walks -/

/-- There is a walk of `n` edges from `s` to `v`, of weight `x`. -/
inductive Walk (w : V → V → WithTop R) (s : V) : ℕ → V → R → Prop
  | nil : Walk w s 0 s 0
  | snoc {n : ℕ} {u v : V} {x c : R} : Walk w s n u x → w u v = (c : WithTop R) →
      Walk w s (n + 1) v (x + c)

/-- There is a walk from `s` to `v`. -/
def Reaches (w : V → V → WithTop R) (s v : V) : Prop := ∃ n x, Walk w s n v x

variable {w : V → V → WithTop R} {s u v : V}

theorem Reaches.refl (w : V → V → WithTop R) (s : V) : Reaches w s s := ⟨0, 0, .nil⟩

/-- Where there are no edges at all but between `P`s, walks from a `P` stay in `P`. -/
theorem Walk.mem {P : V → Prop} (hP : ∀ u v, w u v ≠ ⊤ → P v) (hs : P s) {n : ℕ} {x : R}
    (h : Walk w s n v x) : P v := by
  cases h with
  | nil => exact hs
  | snoc _ hc => exact hP _ _ (by rw [hc]; exact WithTop.coe_ne_top)

/-- Two walks make one. -/
theorem Walk.append {n n' : ℕ} {x x' : R} (h : Walk w s n u x) (h' : Walk w u n' v x') :
    Walk w s (n + n') v (x + x') := by
  induction h' with
  | nil => simpa using h
  | snoc _ hc ih =>
    rw [← add_assoc, ← add_assoc]
    exact ih.snoc hc

/-! ## Paths -/

/-- A walk that repeats no vertex. It lists the vertices it visits, last first, and every vertex
meets the condition `B` with the weight up to it. -/
inductive Path (w : V → V → WithTop R) (s : V) (B : V → R → Prop) : List V → V → R → Prop
  | nil : B s 0 → Path w s B [s] s 0
  | snoc {l : List V} {u v : V} {x c : R} : Path w s B l u x → w u v = (c : WithTop R) → v ∉ l →
      B v (x + c) → Path w s B (v :: l) v (x + c)

namespace Path

variable {B B' : V → R → Prop} {l : List V} {x : R}

theorem mono (hB : ∀ v x, B v x → B' v x) (h : Path w s B l v x) : Path w s B' l v x := by
  induction h with
  | nil hs => exact .nil (hB _ _ hs)
  | snoc _ hc hnew hv ih => exact ih.snoc hc hnew (hB _ _ hv)

theorem nodup (h : Path w s B l v x) : l.Nodup := by
  induction h with
  | nil => exact List.nodup_singleton _
  | snoc _ _ hnew _ ih => exact List.nodup_cons.mpr ⟨hnew, ih⟩

theorem bound (h : Path w s B l v x) : B v x := by
  cases h with
  | nil hs => exact hs
  | snoc _ _ _ hv => exact hv

theorem walk (h : Path w s B l v x) : ∃ n, n + 1 = l.length ∧ Walk w s n v x := by
  induction h with
  | nil => exact ⟨0, rfl, .nil⟩
  | snoc _ hc _ _ ih =>
    obtain ⟨n, hn, hwalk⟩ := ih
    exact ⟨n + 1, by rw [List.length_cons, ← hn], hwalk.snoc hc⟩

/-- A path breaks at each of its vertices into a path and a walk. -/
theorem split (h : Path w s B l u x) (hv : v ∈ l) :
    ∃ l' a, Path w s B l' v a ∧ ∃ n y, Walk w v n u y ∧ a + y = x := by
  induction h with
  | nil hs =>
    obtain rfl := List.mem_singleton.mp hv
    exact ⟨_, _, .nil hs, 0, 0, .nil, add_zero _⟩
  | snoc hpath hc hnew hB ih =>
    rcases List.mem_cons.mp hv with rfl | hv
    · exact ⟨_, _, hpath.snoc hc hnew hB, 0, 0, .nil, add_zero _⟩
    · obtain ⟨l', a, hl', n, y, hwalk, rfl⟩ := ih hv
      exact ⟨l', a, hl', n + 1, _, hwalk.snoc hc, by rw [add_assoc]⟩

/-- Every vertex of a path is its source or the head of an edge. -/
theorem mem {P : V → Prop} (hP : ∀ u v, w u v ≠ ⊤ → P v) (hs : P s) (h : Path w s B l u x) :
    ∀ v ∈ l, P v := by
  intro v hv
  obtain ⟨l', a, hpath, -⟩ := h.split hv
  obtain ⟨n, -, hwalk⟩ := hpath.walk
  exact hwalk.mem hP hs

/-- A path visits each vertex at most once. -/
theorem length_le {vertices : Finset V} (hw : ∀ u v, w u v ≠ ⊤ → v ∈ vertices)
    (hs : s ∈ vertices) (h : Path w s B l v x) : l.length ≤ vertices.card := by
  exact length_le_card_of_nodup h.nodup fun u hu => h.mem (P := (· ∈ vertices)) hw hs u hu

end Path

/-! ## Finitely many vertices -/

/-- The weights of the walks from `s` with fewer than `n` edges. -/
def shortWeights (w : V → V → WithTop R) (s : V) (n : ℕ) : Set R :=
  {x | ∃ m < n, ∃ v, Walk w s m v x}

/-- Between finitely many vertices, walks of bounded length have finitely many weights. -/
theorem finite_shortWeights {vertices : Finset V} (hw : ∀ u v, w u v ≠ ⊤ → v ∈ vertices)
    (hs : s ∈ vertices) (n : ℕ) : (shortWeights w s n).Finite := by
  have hstep : ∀ m, {p : V × R | Walk w s m p.1 p.2}.Finite := by
    intro m
    induction m with
    | zero =>
      refine (Set.finite_singleton (s, (0 : R))).subset ?_
      rintro ⟨v, x⟩ hx
      cases hx
      rfl
    | succ m ih =>
      refine (ih.prod (vertices.finite_toSet)).image
        (fun q : (V × R) × V => (q.2, q.1.2 + (w q.1.1 q.2).untopD 0)) |>.subset ?_
      rintro ⟨v, x⟩ hx
      cases hx with
      | @snoc _ u _ x c hwalk hc =>
        have hedge : w u v = (c : WithTop R) := hc
        refine ⟨((u, x), v), ⟨hwalk, hw u v (by rw [hedge]; exact WithTop.coe_ne_top)⟩, ?_⟩
        show (v, x + (w u v).untopD 0) = (v, x + c)
        rw [hedge, WithTop.untopD_coe]
  refine ((Set.finite_lt_nat n).biUnion fun m _ => (hstep m).image Prod.snd).subset ?_
  rintro x ⟨m, hm, v, hwalk⟩
  exact Set.mem_biUnion hm ⟨(v, x), hwalk, rfl⟩

/-! ## Integer weights

Where the edges weigh integers, so do the walks, and the number of weights that walks of bounded
length can have is bounded by the length and the largest edge alone. The number of walks does not
come in, which may be exponential in the length. -/

section IntWeights

variable {R : Type*} [AddCommGroupWithOne R] {w : V → V → WithTop R} {k : ℕ}

/-- Every edge weighs an integer of absolute value at most `k`. -/
def IntWeights (w : V → V → WithTop R) (k : ℕ) : Prop :=
  ∀ u v (c : R), w u v = c → ∃ z : ℤ, |z| ≤ k ∧ z = c

theorem Walk.exists_int (hw : IntWeights w k) {n : ℕ} {x : R} (h : Walk w s n v x) :
    ∃ z : ℤ, |z| ≤ n * k ∧ z = x := by
  induction h with
  | nil => exact ⟨0, by simp, Int.cast_zero⟩
  | @snoc n u v x c _ hc ih =>
    obtain ⟨a, ha, rfl⟩ := ih
    obtain ⟨b, hb, rfl⟩ := hw u v c hc
    refine ⟨a + b, ?_, Int.cast_add a b⟩
    calc |a + b| ≤ |a| + |b| := abs_add_le a b
      _ ≤ n * k + k := by gcongr
      _ = (n + 1 : ℕ) * k := by push_cast; ring

/-- Walks of fewer than `n` edges weigh integers of absolute value at most `n * k`. -/
theorem ncard_shortWeights_le (hw : IntWeights w k) (n : ℕ) :
    (shortWeights w s n).ncard ≤ 2 * (n * k) + 1 := by
  classical
  have hsub : shortWeights w s n ⊆
      ((Finset.Icc (-(n * k : ℤ)) (n * k)).image fun z : ℤ => (z : R) : Finset R) := by
    rintro x ⟨m, hm, v, hwalk⟩
    obtain ⟨z, hz, rfl⟩ := hwalk.exists_int hw
    have hle : (m * k : ℤ) ≤ n * k := by gcongr
    exact Finset.mem_coe.mpr
      (Finset.mem_image_of_mem _ (Finset.mem_Icc.mpr (abs_le.mp (hz.trans hle))))
  have hcard : (Finset.Icc (-(n * k : ℤ)) (n * k)).card = 2 * (n * k) + 1 := by
    rw [Int.card_Icc, ← Nat.cast_mul]
    omega
  calc (shortWeights w s n).ncard ≤ _ := Set.ncard_le_ncard hsub (Finset.finite_toSet _)
    _ = _ := Set.ncard_coe_finset _
    _ ≤ _ := Finset.card_image_le
    _ = 2 * (n * k) + 1 := hcard

end IntWeights

/-! ## Distances -/

variable [LinearOrder R]

/-- A closed walk of negative weight passes through a vertex in reach. -/
def NegativeCycle (w : V → V → WithTop R) (s : V) : Prop :=
  ∃ v, Reaches w s v ∧ ∃ n x, Walk w v n v x ∧ x < 0

/-- Every label is the least weight of a walk from `s`, and `⊤` where there is no walk. -/
def IsDistance (w : V → V → WithTop R) (s : V) (d : V → WithTop R) : Prop :=
  ∀ v, (∀ n x, Walk w s n v x → d v ≤ x) ∧ ∀ x : R, d v = x → ∃ n, Walk w s n v x

variable {d : V → WithTop R}

/-- The distances are unique. -/
theorem IsDistance.unique {d' : V → WithTop R} (h : IsDistance w s d) (h' : IsDistance w s d') :
    d = d' := by
  have hle : ∀ {a b : V → WithTop R}, IsDistance w s a → IsDistance w s b → ∀ v, a v ≤ b v := by
    intro a b ha hb v
    cases hv : b v with
    | top => exact le_top
    | coe x =>
      obtain ⟨n, hwalk⟩ := (hb v).2 x hv
      exact (ha v).1 n x hwalk
  funext v
  exact le_antisymm (hle h h' v) (hle h' h v)

theorem IsDistance.eq_top_iff (h : IsDistance w s d) : d v = ⊤ ↔ ¬ Reaches w s v := by
  constructor
  · rintro hv ⟨n, x, hwalk⟩
    have hle := (h v).1 n x hwalk
    rw [hv] at hle
    exact WithTop.coe_ne_top (top_le_iff.mp hle)
  · intro hnot
    by_contra hne
    obtain ⟨x, hx⟩ := WithTop.ne_top_iff_exists.mp hne
    obtain ⟨n, hwalk⟩ := (h v).2 x hx.symm
    exact hnot ⟨n, x, hwalk⟩

variable [IsOrderedAddMonoid R]

/-! ## Relaxed labels

Labels that no edge improves are a lower bound for every walk, by induction on its length. -/

/-- No edge out of `u` improves a label. -/
def Relaxed (w : V → V → WithTop R) (d : V → WithTop R) (u : V) : Prop :=
  ∀ v (c : R), w u v = c → d v ≤ d u + c

/-- A label travels along a walk that no edge improves. -/
theorem le_of_relaxed (hrelaxed : ∀ u, Relaxed w d u) {n : ℕ} {x : R} (h : Walk w s n v x) :
    d v ≤ d s + x := by
  induction h with
  | nil => simp
  | snoc _ hc ih =>
    calc d _ ≤ d _ + _ := hrelaxed _ _ _ hc
      _ ≤ d s + _ + _ := by gcongr
      _ = _ := by rw [WithTop.coe_add, add_assoc]

/-- Labels that are weights of walks, and that no edge improves, are the distances. -/
theorem isDistance_of_relaxed (hs : d s ≤ 0) (hwalk : ∀ v (x : R), d v = x → ∃ n, Walk w s n v x)
    (hrelaxed : ∀ u, Relaxed w d u) : IsDistance w s d := by
  refine fun v => ⟨fun n x h => ?_, hwalk v⟩
  calc d v ≤ d s + x := le_of_relaxed hrelaxed h
    _ ≤ 0 + x := by gcongr
    _ = x := zero_add _

/-- Where no edge improves a label, no negative cycle is in reach. -/
theorem not_negativeCycle_of_relaxed (hs : d s ≤ 0) (hrelaxed : ∀ u, Relaxed w d u) :
    ¬ NegativeCycle w s := by
  rintro ⟨v, ⟨n, x, hreach⟩, m, y, hcycle, hneg⟩
  have hfinite : d v ≤ x := by
    calc d v ≤ d s + x := le_of_relaxed hrelaxed hreach
      _ ≤ 0 + x := by gcongr
      _ = x := zero_add _
  obtain ⟨z, hz⟩ := WithTop.ne_top_iff_exists.mp (ne_top_of_le_ne_top WithTop.coe_ne_top hfinite)
  have hle := le_of_relaxed hrelaxed hcycle
  rw [← hz, ← WithTop.coe_add, WithTop.coe_le_coe] at hle
  have : z + y < z + 0 := by gcongr
  rw [add_zero] at this
  exact absurd hle (not_le.mpr this)

/-- Along edges that cost nothing less than zero no walk does. -/
theorem Walk.nonneg (hw : ∀ u v, 0 ≤ w u v) {n : ℕ} {x : R} (h : Walk w s n v x) : 0 ≤ x := by
  induction h with
  | nil => exact le_rfl
  | snoc _ hc ih => exact add_nonneg ih (WithTop.coe_nonneg.mp (hc ▸ hw _ _))

theorem not_negativeCycle_of_nonneg (hw : ∀ u v, 0 ≤ w u v) : ¬ NegativeCycle w s := by
  rintro ⟨v, -, n, x, hwalk, hneg⟩
  exact absurd hneg (not_lt.mpr (hwalk.nonneg hw))

/-! ## Cycles -/

/-- An edge that closes a cycle costs something: going round again gives no smaller weight. -/
theorem Path.le_of_mem (hcycle : ¬ NegativeCycle w s) {B : V → R → Prop} {l : List V} {x : R}
    (h : Path w s B l u x) {c : R}
    (hc : w u v = (c : WithTop R)) (hv : v ∈ l) : ∃ l' a, Path w s B l' v a ∧ a ≤ x + c := by
  obtain ⟨l', a, hpath, n, y, hwalk, rfl⟩ := h.split hv
  refine ⟨l', a, hpath, ?_⟩
  obtain ⟨m, -, hreach⟩ := hpath.walk
  by_contra hlt
  refine hcycle ⟨v, ⟨m, a, hreach⟩, n + 1, y + c, hwalk.snoc hc, ?_⟩
  rw [not_le, add_assoc] at hlt
  have : a + (y + c) < a + 0 := by simpa using hlt
  exact lt_of_add_lt_add_left this

/-- Without negative cycles in reach, some path is at least as good as a given walk. -/
theorem exists_path_le (hcycle : ¬ NegativeCycle w s) {n : ℕ} {x : R} (h : Walk w s n v x) :
    ∃ l a, Path w s (fun _ _ => True) l v a ∧ a ≤ x := by
  induction h with
  | nil => exact ⟨_, _, .nil trivial, le_rfl⟩
  | @snoc n u v x c _ hc ih =>
    obtain ⟨l, a, hpath, hle⟩ := ih
    have hle' : a + c ≤ x + c := by gcongr
    by_cases hv : v ∈ l
    · obtain ⟨l', b, hpath', hb⟩ := hpath.le_of_mem hcycle hc hv
      exact ⟨l', b, hpath', hb.trans hle'⟩
    · exact ⟨_, _, hpath.snoc hc hv trivial, hle'⟩

end Foundation
