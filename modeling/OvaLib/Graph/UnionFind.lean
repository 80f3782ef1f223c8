import Mathlib.Data.Finset.Card
import Mathlib.Data.Int.Order.Basic
import Mathlib.Logic.Function.Basic
import Mathlib.Tactic.Common

/-!
# Union-find

`uf_find` and `uf_union`, on the arrays `parent` and `rank`. A vertex that is its own parent is the
root of its class, and the rank grows along every parent pointer, which is what ends the recursion
of `uf_find`. That recursion takes fuel, and `none` is a call that has not returned.

## The invariant

`UnionFind vertices parent rank root` says that `root` gives every vertex the root of its class, and
that the arrays agree: the parent of a vertex is a vertex of the same class, a root is its own
parent, and any other vertex has a parent of a higher rank. The function `root` is not stored. It is
what the arrays mean, and the two calls are described by what they do to it: a find does nothing, a
union sends one class to the root of the other.

Ranks are not heights here. A compressed path leaves them as they were, so they only bound the
heights from above; all that is used of them is that they grow towards the root. The number of
vertices of a higher rank bounds the recursion, since each of them is met at most once.

## Implementation notes

`uf_find` compresses on the way back: each vertex of the path gets the root for its parent after the
recursive call. The proof is by induction on the fuel. In the step the recursive call has changed
the array, but no root, so the invariant holds of the changed array with the same `root`, and
writing one more parent keeps it.

`uf_union` begins with two finds, the second of which sees what the first has written. The three
cases at its end differ in which root goes below, and in whether a rank is raised; `LinksBelow`
states what they have in common.

## Main results

* `ufFind_spec` — a find returns the root and changes no root
* `ufUnion_spec` — a union merges the classes of its arguments and no others
-/

namespace OvaLib

namespace Graph

/-! ## The model -/

/-- `uf_find`. -/
def ufFind : ℕ → (ℕ → ℤ) → ℕ → Option (ℕ × (ℕ → ℤ))
  | 0, _, _ => none
  | fuel + 1, parent, v =>
    if parent v = v then some (v, parent)
    else
      match ufFind fuel parent (parent v).toNat with
      | none => none
      | some (root, parent) => some (root, Function.update parent v (root : ℤ))

/-- `uf_union`. -/
def ufUnion (fuel : ℕ) (parent rank : ℕ → ℤ) (a b : ℕ) : Option ((ℕ → ℤ) × (ℕ → ℤ)) :=
  match ufFind fuel parent a with
  | none => none
  | some (ra, parent) =>
    match ufFind fuel parent b with
    | none => none
    | some (rb, parent) =>
      if ra = rb then some (parent, rank)
      else if rank ra < rank rb then some (Function.update parent ra (rb : ℤ), rank)
      else if rank ra > rank rb then some (Function.update parent rb (ra : ℤ), rank)
      else some (Function.update parent rb (ra : ℤ), Function.update rank ra (rank ra + 1))

/-! ## Classes

Everything is relative to a set of vertices. The entries of other ids are never read or written. -/

/-- The arrays give every vertex the root of its class. -/
structure UnionFind (vertices : Finset ℕ) (parent rank : ℕ → ℤ) (root : ℕ → ℕ) : Prop where
  root_mem : ∀ v ∈ vertices, root v ∈ vertices
  root_root : ∀ v ∈ vertices, root (root v) = root v
  parent_eq : ∀ v ∈ vertices, ∃ p ∈ vertices, parent v = (p : ℤ) ∧ root p = root v
  parent_iff : ∀ v ∈ vertices, parent v = (v : ℤ) ↔ root v = v
  rank_lt : ∀ v ∈ vertices, ∀ p : ℕ, parent v = (p : ℤ) → p ≠ v → rank v < rank p

variable {vertices : Finset ℕ} {parent rank : ℕ → ℤ} {root : ℕ → ℕ} {v : ℕ}

/-- The vertices of a higher rank: the parents that a find may still come to. -/
def above (vertices : Finset ℕ) (rank : ℕ → ℤ) (v : ℕ) : Finset ℕ :=
  vertices.filter fun u => rank v < rank u

theorem card_above_lt (rank : ℕ → ℤ) (hv : v ∈ vertices) :
    (above vertices rank v).card < vertices.card := by
  refine Finset.card_lt_card (Finset.filter_ssubset.mpr ⟨v, hv, lt_irrefl _⟩)

theorem card_above_lt_of_lt {p : ℕ} (hp : p ∈ vertices) (h : rank v < rank p) :
    (above vertices rank p).card < (above vertices rank v).card := by
  refine Finset.card_lt_card (Finset.ssubset_iff_of_subset (fun u hu => ?_) |>.mpr ⟨p, ?_, ?_⟩)
  · obtain ⟨hu, hlt⟩ := Finset.mem_filter.mp hu
    exact Finset.mem_filter.mpr ⟨hu, h.trans hlt⟩
  · exact Finset.mem_filter.mpr ⟨hp, h⟩
  · exact fun hmem => lt_irrefl _ (Finset.mem_filter.mp hmem).2

/-- The arrays before any union: every vertex is a class. -/
theorem unionFind_start (vertices : Finset ℕ) {parent : ℕ → ℤ}
    (h : ∀ v ∈ vertices, parent v = v) : UnionFind vertices parent (fun _ => 0) id where
  root_mem v hv := hv
  root_root v _ := rfl
  parent_eq v hv := ⟨v, hv, h v hv, rfl⟩
  parent_iff v hv := iff_of_true (h v hv) rfl
  rank_lt v hv p hp hne := by
    rw [h v hv] at hp
    exact absurd (Int.ofNat_inj.mp hp.symm) hne

/-- **A find** returns the root, and compresses the path to it. -/
theorem ufFind_spec : ∀ {fuel : ℕ} {v : ℕ}, UnionFind vertices parent rank root → v ∈ vertices →
    (above vertices rank v).card < fuel →
    (root v ≠ v → rank v < rank (root v)) ∧
      ∃ parent', ufFind fuel parent v = some (root v, parent') ∧
        UnionFind vertices parent' rank root := by
  intro fuel
  induction fuel with
  | zero => exact fun _ _ h => absurd h (Nat.not_lt_zero _)
  | succ fuel ih =>
    intro v h hv hfuel
    rw [ufFind]
    by_cases hself : parent v = (v : ℤ)
    · have hroot := (h.parent_iff v hv).mp hself
      rw [if_pos hself, hroot]
      exact ⟨fun hne => absurd rfl hne, parent, rfl, h⟩
    · obtain ⟨p, hp, hparent, hsame⟩ := h.parent_eq v hv
      have hne : p ≠ v := by
        rintro rfl
        exact hself hparent
      have hlt := h.rank_lt v hv p hparent hne
      have hless := card_above_lt_of_lt hp hlt
      obtain ⟨hrank, parent', hfind, h'⟩ := ih h hp (by omega)
      have hrootlt : rank v < rank (root v) := by
        by_cases hproot : root p = p
        · rw [← hsame, hproot]
          exact hlt
        · rw [← hsame]
          exact hlt.trans (hrank hproot)
      refine ⟨fun _ => hrootlt, Function.update parent' v (root v : ℤ), ?_, ?_⟩
      · rw [if_neg hself, hparent, Int.toNat_natCast, hfind, hsame]
      · have hrootne : root v ≠ v := fun heq => hself ((h.parent_iff v hv).mpr heq)
        refine ⟨h'.root_mem, h'.root_root, fun u hu => ?_, fun u hu => ?_, fun u hu q hq hqu => ?_⟩
        · by_cases huv : u = v
          · subst huv
            exact ⟨root u, h.root_mem u hu, Function.update_self _ _ _, h.root_root u hu⟩
          · rw [Function.update_of_ne huv]
            exact h'.parent_eq u hu
        · by_cases huv : u = v
          · subst huv
            rw [Function.update_self]
            exact Int.ofNat_inj
          · rw [Function.update_of_ne huv]
            exact h'.parent_iff u hu
        · by_cases huv : u = v
          · subst huv
            rw [Function.update_self] at hq
            rw [← Int.ofNat_inj.mp hq]
            exact hrootlt
          · rw [Function.update_of_ne huv] at hq
            exact h'.rank_lt u hu q hq hqu

/-- **One root is put below another**, whose rank is higher now. -/
theorem UnionFind.link (h : UnionFind vertices parent rank root) {x y : ℕ} {rank' : ℕ → ℤ}
    (hx : x ∈ vertices) (hy : y ∈ vertices) (hrx : root x = x) (hry : root y = y) (hxy : x ≠ y)
    (hsame : ∀ u, u ≠ y → rank' u = rank u) (hle : rank y ≤ rank' y) (hlt : rank' x < rank' y) :
    UnionFind vertices (Function.update parent x (y : ℤ)) rank'
      fun u => if root u = x then y else root u := by
  have hmono : ∀ u, rank u ≤ rank' u := by
    intro u
    by_cases huy : u = y
    · rw [huy]
      exact hle
    · rw [hsame u huy]
  refine ⟨fun v hv => ?_, fun v hv => ?_, fun v hv => ?_, fun v hv => ?_, fun v hv p hp hpv => ?_⟩
  · split
    · exact hy
    · exact h.root_mem v hv
  · by_cases hvx : root v = x
    · rw [if_pos hvx, if_neg (by rw [hry]; exact Ne.symm hxy), hry]
    · rw [if_neg hvx, h.root_root v hv, if_neg hvx]
  · by_cases hvx : v = x
    · subst hvx
      refine ⟨y, hy, Function.update_self _ _ _, ?_⟩
      rw [if_pos hrx, if_neg (by rw [hry]; exact Ne.symm hxy), hry]
    · obtain ⟨p, hp, hparent, hroot⟩ := h.parent_eq v hv
      exact ⟨p, hp, by rw [Function.update_of_ne hvx, hparent], by rw [hroot]⟩
  · by_cases hvx : v = x
    · subst hvx
      rw [Function.update_self, if_pos hrx]
      exact Int.ofNat_inj
    · rw [Function.update_of_ne hvx, h.parent_iff v hv]
      by_cases hrv : root v = x
      · rw [if_pos hrv, hrv]
        refine iff_of_false (Ne.symm hvx) ?_
        rintro rfl
        exact hxy (hrv.symm.trans hry)
      · rw [if_neg hrv]
  · by_cases hvx : v = x
    · subst hvx
      rw [Function.update_self] at hp
      rw [← Int.ofNat_inj.mp hp]
      exact hlt
    · rw [Function.update_of_ne hvx] at hp
      have hvy : v ≠ y := by
        rintro rfl
        rw [(h.parent_iff v hv).mpr hry] at hp
        exact hpv (Int.ofNat_inj.mp hp.symm)
      rw [hsame v hvy]
      exact (h.rank_lt v hv p hp hpv).trans_le (hmono p)

/-- The roots of the classes. -/
def roots (vertices : Finset ℕ) (root : ℕ → ℕ) : Finset ℕ := vertices.filter fun v => root v = v

/-- The class of `x` was merged into that of `y`. -/
structure Merged (vertices : Finset ℕ) (root root' : ℕ → ℕ) (a b : ℕ) : Prop where
  root_iff : ∀ u w, root' u = root' w ↔ root u = root w ∨ (root u = root a ∧ root b = root w) ∨
    (root u = root b ∧ root a = root w)
  card_roots : (roots vertices root').card + 1 = (roots vertices root).card

/-- The classes of `x` and `y` have one root when that of `x` is linked below that of `y`. -/
theorem linked_root_iff {x y : ℕ} (hxy : x ≠ y) (u w : ℕ) :
    ((if root u = x then y else root u) = if root w = x then y else root w) ↔
      root u = root w ∨ (root u = x ∧ y = root w) ∨ (root u = y ∧ x = root w) := by
  by_cases hu : root u = x
  · by_cases hw : root w = x
    · simp [hu, hw]
    · rw [if_pos hu, if_neg hw, hu]
      constructor
      · exact fun heq => .inr (.inl ⟨rfl, heq⟩)
      · rintro (heq | ⟨-, heq⟩ | ⟨heq, -⟩)
        · exact absurd heq.symm hw
        · exact heq
        · exact absurd heq hxy
  · by_cases hw : root w = x
    · rw [if_neg hu, if_pos hw, hw]
      constructor
      · exact fun heq => .inr (.inr ⟨heq, rfl⟩)
      · rintro (heq | ⟨heq, -⟩ | ⟨heq, -⟩)
        · exact absurd heq hu
        · exact absurd heq hu
        · exact heq
    · rw [if_neg hu, if_neg hw]
      constructor
      · exact .inl
      · rintro (heq | ⟨heq, -⟩ | ⟨-, heq⟩)
        · exact heq
        · exact absurd heq hu
        · exact absurd heq.symm hw

/-- A link takes one vertex from the roots. -/
theorem roots_link {x y : ℕ} (hrx : root x = x) (hry : root y = y) (hxy : x ≠ y) :
    roots vertices (fun u => if root u = x then y else root u) = (roots vertices root).erase x := by
  ext u
  simp only [roots, Finset.mem_filter, Finset.mem_erase]
  by_cases hux : u = x
  · subst hux
    simp [hrx, Ne.symm hxy]
  · by_cases hu : root u = x
    · rw [if_pos hu, hu]
      refine iff_of_false ?_ fun hall => hux hall.2.2.symm
      rintro ⟨-, rfl⟩
      exact hxy (hu.symm.trans hry)
    · rw [if_neg hu]
      tauto

theorem merged_link {x y a b : ℕ} (hx : x ∈ vertices) (hrx : root x = x) (hry : root y = y)
    (hxy : x ≠ y) (hab : (root a = x ∧ root b = y) ∨ (root a = y ∧ root b = x)) :
    Merged vertices root (fun u => if root u = x then y else root u) a b := by
  refine ⟨fun u w => (linked_root_iff hxy u w).trans ?_, ?_⟩
  · rcases hab with ⟨rfl, rfl⟩ | ⟨rfl, rfl⟩
    · exact Iff.rfl
    · exact or_congr_right or_comm
  · rw [roots_link hrx hry hxy]
    exact Finset.card_erase_add_one (Finset.mem_filter.mpr ⟨hx, hrx⟩)

/-- A find writes to vertices only. -/
theorem ufFind_absent : ∀ {fuel : ℕ} {v r : ℕ} {parent' : ℕ → ℤ},
    UnionFind vertices parent rank root → v ∈ vertices →
      ufFind fuel parent v = some (r, parent') → ∀ u ∉ vertices, parent' u = parent u := by
  intro fuel
  induction fuel with
  | zero => exact fun _ _ hfind => absurd hfind (by simp [ufFind])
  | succ fuel ih =>
    intro v r parent' h hv hfind u hu
    rw [ufFind] at hfind
    split at hfind
    · rw [← (Prod.mk.inj (Option.some.inj hfind)).2]
    · obtain ⟨p, hp, hparent, -⟩ := h.parent_eq v hv
      rw [hparent, Int.toNat_natCast] at hfind
      split at hfind
      · cases hfind
      · next root' parent₁ hrec =>
        rw [← (Prod.mk.inj (Option.some.inj hfind)).2]
        have hne : u ≠ v := by
          rintro rfl
          exact hu hv
        rw [Function.update_of_ne hne, ih h hp hrec u hu]

/-- The root `x` goes below the root `y`, whose rank goes up by one at most. -/
structure LinksBelow (rank rank' : ℕ → ℤ) (root : ℕ → ℕ) (a b x y : ℕ) : Prop where
  ends : (root a = x ∧ root b = y) ∨ (root a = y ∧ root b = x)
  same : ∀ u, u ≠ y → rank' u = rank u
  le : rank y ≤ rank' y
  le_succ : rank' y ≤ rank y + 1
  lt : rank' x < rank' y

theorem linksBelow_same {rank' : ℕ → ℤ} {a b x y : ℕ}
    (ends : (root a = x ∧ root b = y) ∨ (root a = y ∧ root b = x)) (hrank : rank' = rank)
    (hlt : rank x < rank y) : LinksBelow rank rank' root a b x y := by
  subst hrank
  exact ⟨ends, fun _ _ => rfl, le_refl _, by omega, hlt⟩

/-- A union first finds both roots, which compresses two paths. -/
theorem ufUnion_finds (h : UnionFind vertices parent rank root) {a b fuel : ℕ}
    (ha : a ∈ vertices) (hb : b ∈ vertices) (hfuel : vertices.card ≤ fuel) :
    ∃ parent₂, UnionFind vertices parent₂ rank root ∧ (∀ u ∉ vertices, parent₂ u = parent u) ∧
      (root a = root b → ufUnion fuel parent rank a b = some (parent₂, rank)) ∧
      (root a ≠ root b → ∃ x y rank', LinksBelow rank rank' root a b x y ∧
        ufUnion fuel parent rank a b = some (Function.update parent₂ x (y : ℤ), rank')) := by
  obtain ⟨-, parent₁, hfind₁, h₁⟩ := ufFind_spec h ha ((card_above_lt rank ha).trans_le hfuel)
  obtain ⟨-, parent₂, hfind₂, h₂⟩ := ufFind_spec h₁ hb ((card_above_lt rank hb).trans_le hfuel)
  refine ⟨parent₂, h₂, fun u hu => ?_, fun heq => ?_, fun hab => ?_⟩
  · rw [ufFind_absent h₁ hb hfind₂ u hu, ufFind_absent h ha hfind₁ u hu]
  · rw [ufUnion, hfind₁]
    dsimp only
    rw [hfind₂]
    dsimp only
    rw [if_pos heq]
  · rw [ufUnion, hfind₁]
    dsimp only
    rw [hfind₂]
    dsimp only
    rw [if_neg hab]
    rcases lt_trichotomy (rank (root a)) (rank (root b)) with hlt | heq | hgt
    · rw [if_pos hlt]
      exact ⟨_, _, _, linksBelow_same (.inl ⟨rfl, rfl⟩) rfl hlt, rfl⟩
    · rw [if_neg heq.not_lt, if_neg heq.not_gt]
      refine ⟨_, _, _, ⟨.inr ⟨rfl, rfl⟩, fun u hu => Function.update_of_ne hu _ _, ?_, ?_, ?_⟩, rfl⟩
      · rw [Function.update_self]
        omega
      · rw [Function.update_self]
      · rw [Function.update_self, Function.update_of_ne (Ne.symm hab), heq]
        omega
    · rw [if_neg (not_lt.mpr hgt.le), if_pos hgt]
      exact ⟨_, _, _, linksBelow_same (.inr ⟨rfl, rfl⟩) rfl hgt, rfl⟩

/-- Where the two roots that are linked lie. -/
theorem LinksBelow.roots_mem {rank' : ℕ → ℤ} {a b x y : ℕ}
    (hlink : LinksBelow rank rank' root a b x y) (h : UnionFind vertices parent rank root)
    (ha : a ∈ vertices) (hb : b ∈ vertices) :
    x ∈ vertices ∧ y ∈ vertices ∧ root x = x ∧ root y = y := by
  obtain ⟨rfl, rfl⟩ | ⟨rfl, rfl⟩ := hlink.ends
  · exact ⟨h.root_mem a ha, h.root_mem b hb, h.root_root a ha, h.root_root b hb⟩
  · exact ⟨h.root_mem b hb, h.root_mem a ha, h.root_root b hb, h.root_root a ha⟩

theorem LinksBelow.ne {rank' : ℕ → ℤ} {a b x y : ℕ} (hlink : LinksBelow rank rank' root a b x y) :
    x ≠ y := by
  rintro rfl
  exact lt_irrefl _ hlink.lt

/-- **A link merges the two classes.** -/
theorem UnionFind.linksBelow (h : UnionFind vertices parent rank root) {rank' : ℕ → ℤ}
    {a b x y : ℕ} (hlink : LinksBelow rank rank' root a b x y) (ha : a ∈ vertices)
    (hb : b ∈ vertices) :
    UnionFind vertices (Function.update parent x (y : ℤ)) rank'
        (fun u => if root u = x then y else root u) ∧
      Merged vertices root (fun u => if root u = x then y else root u) a b := by
  obtain ⟨hx, hy, hrx, hry⟩ := hlink.roots_mem h ha hb
  exact ⟨h.link hx hy hrx hry hlink.ne hlink.same hlink.le hlink.lt,
    merged_link hx hrx hry hlink.ne hlink.ends⟩

/-- **A union of two classes** that differ. -/
theorem ufUnion_spec (h : UnionFind vertices parent rank root) {a b fuel : ℕ}
    (ha : a ∈ vertices) (hb : b ∈ vertices) (hab : root a ≠ root b)
    (hfuel : vertices.card ≤ fuel) :
    ∃ parent' rank' root', ufUnion fuel parent rank a b = some (parent', rank') ∧
      UnionFind vertices parent' rank' root' ∧ Merged vertices root root' a b := by
  obtain ⟨parent₂, h₂, -, -, hdiffer⟩ := ufUnion_finds h ha hb hfuel
  obtain ⟨x, y, rank', hlink, hunion⟩ := hdiffer hab
  exact ⟨_, _, _, hunion, h₂.linksBelow hlink ha hb⟩

end Graph

end OvaLib
