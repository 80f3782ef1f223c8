import OvaLib.Foundation.SpanningForest
import OvaLib.Graph.UnionFind

/-! # Runs of union-find

Any sequence of `uf_find` and `uf_union` calls, from the arrays in which every vertex is a class of
its own. The classes that the arrays hold are read off the parent pointers: a vertex is represented
by the root that its parents lead to.

## What is shown

The abstract side is a set of pairs, those that the calls have united, and the classes are those of
the equivalence that the pairs generate. It does not mention ranks, compression or the order of the
calls. The arrays hold these classes after every sequence of calls, whatever finds there are in
between and whichever of two roots a union has put below the other.

The parents are shown to have no cycle by the ranks, which grow along them. So each vertex has
exactly one representative, the chain to it ends, and a find with fuel for all vertices returns it.

## Implementation notes

`UfInv` is the invariant of a run. Beside the classes it says that ids which are no vertices still
have the parent `-1`, and that ranks are not negative and stay below the number of vertices, since a
rank is raised only where two roots become one. One lemma for each kind of call, then one for a
call, then the induction on the sequence.

## Main results

* `isRepresentative_iff` — whom the parents lead to
* `ufUnion_unites` — a union, whether or not its arguments are in one class already
* `UfInv.run`, `ufRun_inv` — what a call and a sequence of calls preserve
* `ufRun_correct` — finds and unions after any sequence of calls
-/

namespace OvaLib

namespace Graph

open Foundation

/-! ## Calls -/

/-- The arrays `parent` and `rank`. -/
structure UfArrays where
  parent : ℕ → ℤ
  rank : ℕ → ℤ

/-- The arrays before the first call: every vertex is its own parent, and `-1` marks the ids that
are not vertices. -/
def singletons (vertices : Finset ℕ) : UfArrays where
  parent := fun v => if v ∈ vertices then v else -1
  rank := fun _ => 0

/-- A call of `uf_find` or `uf_union`. -/
inductive UfCall
  | find (v : ℕ)
  | union (a b : ℕ)
  deriving DecidableEq, Repr

/-- The vertices that a call is given. -/
def UfCall.args : UfCall → List ℕ
  | .find v => [v]
  | .union a b => [a, b]

/-- The pair that a call unites. -/
def UfCall.united : UfCall → Option (ℕ × ℕ)
  | .find _ => none
  | .union a b => some (a, b)

/-- What a call makes of the arrays; `none` is a call that has not returned. -/
def UfCall.run (fuel : ℕ) (s : UfArrays) : UfCall → Option UfArrays
  | .find v => (ufFind fuel s.parent v).map fun found => ⟨found.2, s.rank⟩
  | .union a b => (ufUnion fuel s.parent s.rank a b).map fun arrays => ⟨arrays.1, arrays.2⟩

/-- One call after the other. -/
def ufRun (fuel : ℕ) : UfArrays → List UfCall → Option UfArrays
  | s, [] => some s
  | s, c :: calls => (c.run fuel s).bind fun s' => ufRun fuel s' calls

/-- The pairs that a sequence of calls unites. -/
def unitedBy (calls : List UfCall) : Set (ℕ × ℕ) := {e | ∃ c ∈ calls, c.united = some e}

/-! ## The classes in the arrays -/

/-- The parents of `v` lead to the root `r`. -/
inductive IsRepresentative (parent : ℕ → ℤ) : ℕ → ℕ → Prop
  | root {v : ℕ} : parent v = (v : ℤ) → IsRepresentative parent v v
  | up {v p r : ℕ} : parent v = (p : ℤ) → p ≠ v → IsRepresentative parent p r →
      IsRepresentative parent v r

/-- Two vertices have one representative. -/
def SameClass (parent : ℕ → ℤ) (u w : ℕ) : Prop :=
  ∃ r, IsRepresentative parent u r ∧ IsRepresentative parent w r

variable {vertices : Finset ℕ} {parent rank : ℕ → ℤ} {root : ℕ → ℕ} {fuel : ℕ}

/-- **Whom the parents lead to**: the root of the class. By induction on the parents above. -/
theorem UnionFind.isRepresentative (h : UnionFind vertices parent rank root) {v : ℕ}
    (hv : v ∈ vertices) : IsRepresentative parent v (root v) := by
  induction hn : (above vertices rank v).card using Nat.strong_induction_on generalizing v with
  | _ n ih =>
    by_cases hself : parent v = (v : ℤ)
    · rw [(h.parent_iff v hv).mp hself]
      exact .root hself
    · obtain ⟨p, hp, hparent, hsame⟩ := h.parent_eq v hv
      have hne : p ≠ v := by
        rintro rfl
        exact hself hparent
      have hless := card_above_lt_of_lt hp (h.rank_lt v hv p hparent hne)
      have hup := ih _ (hn ▸ hless) hp rfl
      rw [hsame] at hup
      exact .up hparent hne hup

/-- A vertex has one representative. -/
theorem IsRepresentative.unique {v r r' : ℕ} (h : IsRepresentative parent v r)
    (h' : IsRepresentative parent v r') : r = r' := by
  induction h with
  | root hself =>
    cases h' with
    | root _ => rfl
    | up hparent hne _ => exact absurd (Int.ofNat_inj.mp (hparent.symm.trans hself)) hne
  | up hparent hne _ ih =>
    cases h' with
    | root hself => exact absurd (Int.ofNat_inj.mp (hparent.symm.trans hself)) hne
    | up hparent' _ hrest =>
      obtain rfl := Int.ofNat_inj.mp (hparent.symm.trans hparent')
      exact ih hrest

theorem UnionFind.isRepresentative_iff (h : UnionFind vertices parent rank root) {v r : ℕ}
    (hv : v ∈ vertices) : IsRepresentative parent v r ↔ root v = r := by
  constructor
  · exact (h.isRepresentative hv).unique
  · rintro rfl
    exact h.isRepresentative hv

theorem UnionFind.sameClass_iff (h : UnionFind vertices parent rank root) {u w : ℕ}
    (hu : u ∈ vertices) (hw : w ∈ vertices) : SameClass parent u w ↔ root u = root w := by
  constructor
  · rintro ⟨r, hur, hwr⟩
    rw [(h.isRepresentative_iff hu).mp hur, (h.isRepresentative_iff hw).mp hwr]
  · intro heq
    exact ⟨root u, h.isRepresentative hu, (h.isRepresentative_iff hw).mpr heq.symm⟩

/-! ## Unions -/

/-- The arrays after a call that unites the classes of `a` and `b`. -/
structure Unites (vertices : Finset ℕ) (s s' : UfArrays) (root root' : ℕ → ℕ) (a b : ℕ) :
    Prop where
  unionFind : UnionFind vertices s'.parent s'.rank root'
  root_iff : ∀ u w, root' u = root' w ↔ root u = root w ∨ (root u = root a ∧ root b = root w) ∨
    (root u = root b ∧ root a = root w)
  absent : ∀ u ∉ vertices, s'.parent u = s.parent u
  rank_le : ∀ u, s.rank u ≤ s'.rank u
  rank_roots : ∀ u, s'.rank u + (roots vertices root').card ≤ s.rank u + (roots vertices root).card

/-- **A union**, whether or not its arguments are in one class already. -/
theorem ufUnion_unites {s : UfArrays} (h : UnionFind vertices s.parent s.rank root) {a b : ℕ}
    (ha : a ∈ vertices) (hb : b ∈ vertices) (hfuel : vertices.card ≤ fuel) :
    ∃ parent' rank' root', ufUnion fuel s.parent s.rank a b = some (parent', rank') ∧
      Unites vertices s ⟨parent', rank'⟩ root root' a b := by
  obtain ⟨parent₂, h₂, habsent, hequal, hdiffer⟩ := ufUnion_finds h ha hb hfuel
  by_cases hab : root a = root b
  · refine ⟨parent₂, s.rank, root, hequal hab, h₂, fun u w => ?_, habsent, fun _ => le_refl _,
      fun _ => le_refl _⟩
    rw [hab]
    refine ⟨.inl, ?_⟩
    rintro (heq | ⟨hu, hw⟩ | ⟨hu, hw⟩)
    exacts [heq, hu.trans hw, hu.trans hw]
  · obtain ⟨x, y, rank', hlink, hunion⟩ := hdiffer hab
    obtain ⟨h', hmerged⟩ := h₂.linksBelow hlink ha hb
    refine ⟨_, rank', _, hunion, h', hmerged.root_iff, fun u hu => ?_, fun u => ?_, fun u => ?_⟩
    · have hux : u ≠ x := by
        rintro rfl
        exact hu (hlink.roots_mem h₂ ha hb).1
      exact (Function.update_of_ne hux _ _).trans (habsent u hu)
    · by_cases huy : u = y
      · rw [huy]
        exact hlink.le
      · exact (hlink.same u huy).ge
    · have hroots := hmerged.card_roots
      have hrank : rank' u ≤ s.rank u + 1 := by
        by_cases huy : u = y
        · rw [huy]
          exact hlink.le_succ
        · rw [hlink.same u huy]
          omega
      dsimp only
      omega

/-! ## Runs -/

/-- **What every run keeps**: the arrays hold the classes that the calls so far have made, ids that
are not vertices stay marked, and the ranks are bounded by the unions that there can have been. -/
structure UfInv (vertices : Finset ℕ) (F : Set (ℕ × ℕ)) (s : UfArrays) (root : ℕ → ℕ) :
    Prop where
  unionFind : UnionFind vertices s.parent s.rank root
  classes : ∀ u w, root u = root w ↔ Joined id F u w
  absent : ∀ v ∉ vertices, s.parent v = -1
  rank_nonneg : ∀ v, 0 ≤ s.rank v
  rank_roots : ∀ v, s.rank v + (roots vertices root).card ≤ vertices.card

theorem joined_empty_iff {u w : ℕ} : Joined id (∅ : Set (ℕ × ℕ)) u w ↔ u = w := by
  constructor
  · exact Joined.of_equivalence eq_equivalence fun e he => absurd he (Set.notMem_empty e)
  · rintro rfl
    exact .refl _ u

theorem ufInv_singletons (vertices : Finset ℕ) : UfInv vertices ∅ (singletons vertices) id where
  unionFind := unionFind_start vertices fun _ hv => if_pos hv
  classes := fun _ _ => joined_empty_iff.symm
  absent := fun _ hv => if_neg hv
  rank_nonneg := fun _ => le_refl 0
  rank_roots := fun v => by
    have hroots : roots vertices id = vertices := Finset.filter_true_of_mem fun _ _ => rfl
    rw [hroots]
    exact (zero_add _).le

variable {F : Set (ℕ × ℕ)} {s : UfArrays}

/-- A find keeps the classes. -/
theorem UfInv.find (h : UfInv vertices F s root) {v : ℕ} (hv : v ∈ vertices)
    (hfuel : vertices.card ≤ fuel) : ∃ parent', ufFind fuel s.parent v = some (root v, parent') ∧
      UfInv vertices F ⟨parent', s.rank⟩ root := by
  obtain ⟨-, parent', hfind, h'⟩ :=
    ufFind_spec h.unionFind hv ((card_above_lt s.rank hv).trans_le hfuel)
  exact ⟨parent', hfind, h', h.classes,
    fun u hu => (ufFind_absent h.unionFind hv hfind u hu).trans (h.absent u hu),
    h.rank_nonneg, h.rank_roots⟩

/-- A union makes the classes that one more pair makes. -/
theorem UfInv.union (h : UfInv vertices F s root) {a b : ℕ} (ha : a ∈ vertices) (hb : b ∈ vertices)
    (hfuel : vertices.card ≤ fuel) :
    ∃ parent' rank' root', ufUnion fuel s.parent s.rank a b = some (parent', rank') ∧
      Unites vertices s ⟨parent', rank'⟩ root root' a b ∧
        UfInv vertices (insert (a, b) F) ⟨parent', rank'⟩ root' := by
  obtain ⟨parent', rank', root', hunion, hunites⟩ := ufUnion_unites h.unionFind ha hb hfuel
  refine ⟨parent', rank', root', hunion, hunites, hunites.unionFind, fun u w => ?_,
    fun u hu => (hunites.absent u hu).trans (h.absent u hu),
    fun u => (h.rank_nonneg u).trans (hunites.rank_le u),
    fun u => (hunites.rank_roots u).trans (h.rank_roots u)⟩
  rw [hunites.root_iff, joined_insert_iff]
  simp only [h.classes, id]

/-- **One call.** -/
theorem UfInv.run (h : UfInv vertices F s root) {c : UfCall} (hargs : ∀ v ∈ c.args, v ∈ vertices)
    (hfuel : vertices.card ≤ fuel) : ∃ s' root', c.run fuel s = some s' ∧
      UfInv vertices (F ∪ unitedBy [c]) s' root' := by
  cases c with
  | find v =>
    obtain ⟨parent', hfind, h'⟩ := h.find (hargs v List.mem_cons_self) hfuel
    have hnone : F ∪ unitedBy [.find v] = F := by
      simp [unitedBy, UfCall.united]
    refine ⟨_, root, by rw [UfCall.run, hfind, Option.map_some], ?_⟩
    rw [hnone]
    exact h'
  | union a b =>
    obtain ⟨parent', rank', root', hunion, -, h'⟩ := h.union (hargs a List.mem_cons_self)
      (hargs b (List.mem_cons_of_mem _ List.mem_cons_self)) hfuel
    have hone : F ∪ unitedBy [.union a b] = insert (a, b) F := by
      ext e
      simp [unitedBy, UfCall.united, eq_comm, or_comm]
    refine ⟨_, root', by rw [UfCall.run, hunion, Option.map_some], ?_⟩
    rw [hone]
    exact h'

theorem unitedBy_cons (c : UfCall) (calls : List UfCall) :
    unitedBy (c :: calls) = unitedBy [c] ∪ unitedBy calls := by
  ext e
  simp [unitedBy]

/-- **A sequence of calls**, by induction on it. -/
theorem ufRun_inv (hfuel : vertices.card ≤ fuel) {calls : List UfCall}
    (hargs : ∀ c ∈ calls, ∀ v ∈ c.args, v ∈ vertices) (h : UfInv vertices F s root) :
    ∃ s' root', ufRun fuel s calls = some s' ∧ UfInv vertices (F ∪ unitedBy calls) s' root' := by
  induction calls generalizing F s root with
  | nil =>
    have hnone : F ∪ unitedBy [] = F := by
      simp [unitedBy]
    exact ⟨s, root, rfl, hnone.symm ▸ h⟩
  | cons c calls ih =>
    obtain ⟨s₁, root₁, hrun, h₁⟩ := h.run (hargs c List.mem_cons_self) hfuel
    obtain ⟨s', root', hrest, h'⟩ := ih (fun d hd => hargs d (List.mem_cons_of_mem c hd)) h₁
    refine ⟨s', root', by rw [ufRun, hrun, Option.bind_some, hrest], ?_⟩
    rw [unitedBy_cons, ← Set.union_assoc]
    exact h'

/-! ## What a caller sees -/

/-- The arrays hold classes, and finds and unions on them do what they are for. -/
structure UfCorrect (vertices : Finset ℕ) (fuel : ℕ) (F : Set (ℕ × ℕ)) (s : UfArrays) :
    Prop where
  /-- A find returns the representative and leaves every vertex its own. -/
  find : ∀ v ∈ vertices, ∃ r parent', ufFind fuel s.parent v = some (r, parent') ∧
    IsRepresentative s.parent v r ∧
      ∀ u ∈ vertices, ∀ w, IsRepresentative parent' u w ↔ IsRepresentative s.parent u w
  /-- A union merges the classes of its arguments and no others. -/
  union : ∀ a ∈ vertices, ∀ b ∈ vertices, ∃ parent' rank',
    ufUnion fuel s.parent s.rank a b = some (parent', rank') ∧
      ∀ u ∈ vertices, ∀ w ∈ vertices, SameClass parent' u w ↔ SameClass s.parent u w ∨
        (SameClass s.parent u a ∧ SameClass s.parent b w) ∨
          (SameClass s.parent u b ∧ SameClass s.parent a w)
  /-- Every vertex has a parent, which has a higher rank unless it is the vertex itself. -/
  rank_lt : ∀ v ∈ vertices, ∃ p ∈ vertices, s.parent v = (p : ℤ) ∧
    (p ≠ v → s.rank v < s.rank p)
  /-- The ranks are too small to overflow. -/
  rank_bounds : ∀ v ∈ vertices, 0 ≤ s.rank v ∧ s.rank v < vertices.card
  /-- The other ids stay marked. -/
  absent : ∀ v ∉ vertices, s.parent v = -1
  /-- The classes are those that the pairs generate. -/
  classes : ∀ u ∈ vertices, ∀ w ∈ vertices, SameClass s.parent u w ↔ Joined id F u w

theorem UfInv.correct (h : UfInv vertices F s root) (hfuel : vertices.card ≤ fuel) :
    UfCorrect vertices fuel F s where
  find v hv := by
    obtain ⟨parent', hfind, h'⟩ := h.find hv hfuel
    refine ⟨root v, parent', hfind, h.unionFind.isRepresentative hv, fun u hu w => ?_⟩
    exact (h'.unionFind.isRepresentative_iff hu).trans (h.unionFind.isRepresentative_iff hu).symm
  union a ha b hb := by
    obtain ⟨parent', rank', root', hunion, hunites, -⟩ := h.union ha hb hfuel
    refine ⟨parent', rank', hunion, fun u hu w hw => ?_⟩
    rw [hunites.unionFind.sameClass_iff hu hw, hunites.root_iff, h.unionFind.sameClass_iff hu hw,
      h.unionFind.sameClass_iff hu ha, h.unionFind.sameClass_iff hb hw,
      h.unionFind.sameClass_iff hu hb, h.unionFind.sameClass_iff ha hw]
  rank_lt v hv := by
    obtain ⟨p, hp, hparent, -⟩ := h.unionFind.parent_eq v hv
    exact ⟨p, hp, hparent, h.unionFind.rank_lt v hv p hparent⟩
  rank_bounds v hv := by
    refine ⟨h.rank_nonneg v, ?_⟩
    have hroot : root v ∈ roots vertices root :=
      Finset.mem_filter.mpr ⟨h.unionFind.root_mem v hv, h.unionFind.root_root v hv⟩
    have hpos : 0 < (roots vertices root).card := Finset.card_pos.mpr ⟨_, hroot⟩
    have hle := h.rank_roots v
    omega
  absent := h.absent
  classes u hu w hw := (h.unionFind.sameClass_iff hu hw).trans (h.classes u w)

/-- **After any sequence of calls** on vertices, all of which return, the classes are those that
the unions have generated, a find returns the representative and changes none, a union merges
two classes, and the rank grows along every parent pointer. -/
theorem ufRun_correct {calls : List UfCall} (hargs : ∀ c ∈ calls, ∀ v ∈ c.args, v ∈ vertices)
    (hfuel : vertices.card ≤ fuel) : ∃ s, ufRun fuel (singletons vertices) calls = some s ∧
      UfCorrect vertices fuel (unitedBy calls) s := by
  obtain ⟨s, root, hrun, h⟩ := ufRun_inv hfuel hargs (ufInv_singletons vertices)
  rw [Set.empty_union] at h
  exact ⟨s, hrun, h.correct hfuel⟩

theorem ufRun_correct_pairs : ∃ s,
    ufRun 4 (singletons {0, 1, 3, 5}) [.union 0 1, .union 3 5, .union 1 5, .find 5] = some s ∧
      UfCorrect {0, 1, 3, 5} 4
        (unitedBy [.union 0 1, .union 3 5, .union 1 5, .find 5]) s :=
  ufRun_correct (by decide) (by decide)

end Graph

end OvaLib
