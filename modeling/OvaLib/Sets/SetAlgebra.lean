import OvaLib.Sets.SetRefinement

/-!
# The algebra of sets

A `Program` says how a set is made: from an empty one by additions and removals, and by the
operations on two sets. Every set made so represents the set of classes the program denotes, as long
as none of the sets on the way has more than `INT_MAX` members.

## The shape of the result

A program is a tree, since the operations take two sets that were made independently. `build` runs
the methods of the source over that tree, and `denote` reads the same tree in the algebra of sets of
comparator classes. The theorem is by induction on the program, with one case for each operation,
and each case is one lemma of `SetRefinement`. The answers of a set, its size, the membership of
every element and what a further addition or removal says, then depend only on what it denotes; and
two programs with the same members have sets with the same answers, so that the laws of the algebra
of sets carry over without being proved one by one.

## The bound

`INT_MAX` is a bound on the members of every set that is made on the way, and not only of the last
one. A set of more members works, but its size is a number that has wrapped around, `to_list` starts
from a capacity that is not its size and stops at `INT_MAX` items, and the sets made from it lack
members. `size_beyond_intMax` is the first such set.

## Main results

* `build_represents` — the set a program makes represents what it denotes
* `defaultFunctions_lawful` — the functions of a set made without any
* `sets_are_finite_sets` — the answers of all these sets
* `size_beyond_intMax` — one more member than an `int` can count
-/

namespace OvaLib

namespace Sets

open Foundation

/-- How a set is made. -/
inductive Program (α : Type*)
  | create
  | add (p : Program α) (x : α)
  | remove (p : Program α) (x : α)
  | union (p q : Program α)
  | intersection (p q : Program α)
  | difference (p q : Program α)

variable {α : Type*}

namespace Program

/-- The set a program makes, with allocations succeeding. -/
def build [DecidableEq α] [Inhabited α] (ptr : α → UInt64) (type : SetType)
    (cmp : FnPtr (α → α → ℤ)) (hash : FnPtr (α → ℕ → ℕ)) (fuel : ℕ) :
    Program α → Option (SetImpl α)
  | .create => (createSet ptr .always type (some cmp) (some hash)).1
  | .add p x => do
    let s ← p.build ptr type cmp hash fuel
    let (_, s, _) ← setAddMethod fuel .always s (some x)
    return s
  | .remove p x => do
    let s ← p.build ptr type cmp hash fuel
    let (_, s) ← setRemoveMethod fuel s (some x)
    return s
  | .union p q => do
    let s ← p.build ptr type cmp hash fuel
    let t ← q.build ptr type cmp hash fuel
    let (u, _) ← setUnionWithMethod ptr fuel .always s t
    u
  | .intersection p q => do
    let s ← p.build ptr type cmp hash fuel
    let t ← q.build ptr type cmp hash fuel
    let (u, _) ← setIntersectionWithMethod ptr fuel .always s t
    u
  | .difference p q => do
    let s ← p.build ptr type cmp hash fuel
    let t ← q.build ptr type cmp hash fuel
    let (u, _) ← setDifferenceWithMethod ptr fuel .always s t
    u

variable {cmp : α → α → ℤ}

/-- The set of classes a program denotes. -/
def denote (h : IsComparator cmp) : Program α → Set h.KeyClass
  | .create => ∅
  | .add p x => insert (h.keyClass x) (p.denote h)
  | .remove p x => p.denote h \ {h.keyClass x}
  | .union p q => p.denote h ∪ q.denote h
  | .intersection p q => p.denote h ∩ q.denote h
  | .difference p q => p.denote h \ q.denote h

/-- None of the sets on the way has more than `n` members. -/
def Bounded (h : IsComparator cmp) (n : ℕ) : Program α → Prop
  | .create => True
  | .add p x => p.Bounded h n ∧ ((p.add x).denote h).ncard ≤ n
  | .remove p _ => p.Bounded h n
  | .union p q => p.Bounded h n ∧ q.Bounded h n ∧ ((p.union q).denote h).ncard ≤ n
  | .intersection p q => p.Bounded h n ∧ q.Bounded h n
  | .difference p q => p.Bounded h n ∧ q.Bounded h n

theorem finite_denote (h : IsComparator cmp) (p : Program α) : (p.denote h).Finite := by
  induction p with
  | create => exact Set.finite_empty
  | add p x ih => exact ih.insert _
  | remove p x ih => exact ih.sdiff
  | union p q ihp ihq => exact ihp.union ihq
  | intersection p q ihp ihq => exact ihp.inter_of_left _
  | difference p q ihp ihq => exact ihp.sdiff

theorem Bounded.ncard_le {h : IsComparator cmp} {n : ℕ} {p : Program α} (hp : p.Bounded h n) :
    (p.denote h).ncard ≤ n := by
  induction p with
  | create => simp [denote]
  | add p x ih => exact hp.2
  | remove p x ih => exact (Set.ncard_le_ncard Set.sdiff_subset (p.finite_denote h)).trans (ih hp)
  | union p q ihp ihq => exact hp.2.2
  | intersection p q ihp ihq =>
    exact (Set.ncard_le_ncard Set.inter_subset_left (p.finite_denote h)).trans (ihp hp.1)
  | difference p q ihp ihq =>
    exact (Set.ncard_le_ncard Set.sdiff_subset (p.finite_denote h)).trans (ihp hp.1)

theorem Bounded.union_comm {h : IsComparator cmp} {n : ℕ} {p q : Program α}
    (hpq : (p.union q).Bounded h n) : (q.union p).Bounded h n := by
  obtain ⟨hp, hq, hle⟩ := hpq
  refine ⟨hq, hp, ?_⟩
  rwa [denote, Set.union_comm]

theorem Bounded.union_assoc {h : IsComparator cmp} {n : ℕ} {p q r : Program α}
    (hpqr : ((p.union q).union r).Bounded h n) : (p.union (q.union r)).Bounded h n := by
  obtain ⟨⟨hp, hq, -⟩, hr, hle⟩ := hpqr
  have hassoc : (p.union (q.union r)).denote h = ((p.union q).union r).denote h :=
    (Set.union_assoc _ _ _).symm
  have hsub : (q.union r).denote h ⊆ (p.union (q.union r)).denote h := Set.subset_union_right
  rw [← hassoc] at hle
  exact ⟨hp, ⟨hq, hr, (Set.ncard_le_ncard hsub (finite_denote h _)).trans hle⟩, hle⟩

end Program

variable [DecidableEq α] [Inhabited α] {type : SetType} {cmp : FnPtr (α → α → ℤ)}
  {hash : FnPtr (α → ℕ → ℕ)}

/-- **The set a program makes** represents what the program denotes. -/
theorem build_represents (ptr : α → UInt64) (type : SetType) (hl : (mapFunctions cmp hash).Lawful)
    (h : IsComparator cmp.call) {n fuel : ℕ} (hn : n ≤ intMax) (hfuel : n < fuel) {p : Program α}
    (hp : p.Bounded h n) :
    ∃ s, p.build ptr type cmp hash fuel = some s ∧ Represents hl h type s (p.denote h) := by
  induction p with
  | create =>
    obtain ⟨s, hs, hrep⟩ := createSetWithCapacity_spec ptr hl h type (fun _ => rfl) 0
    exact ⟨s, by rw [Program.build, createSet, hs], hrep⟩
  | add p x ih =>
    obtain ⟨s, hs, hrep⟩ := ih hp.1
    obtain ⟨added, s', hadd, hrep', -⟩ :=
      setAddMethod_spec hrep x (hp.1.ncard_le.trans_lt hfuel)
    exact ⟨s', by simp [Program.build, hs, hadd], hrep'⟩
  | remove p x ih =>
    obtain ⟨s, hs, hrep⟩ := ih hp
    have hbounded : p.Bounded h n := hp
    obtain ⟨removed, s', hremove, hrep', -⟩ :=
      setRemoveMethod_spec hrep x (hbounded.ncard_le.trans_lt hfuel)
    exact ⟨s', by simp [Program.build, hs, hremove], hrep'⟩
  | union p q ihp ihq =>
    obtain ⟨hp, hq, hle⟩ := hp
    obtain ⟨s, hs, hrs⟩ := ihp hp
    obtain ⟨t, ht, hrt⟩ := ihq hq
    obtain ⟨u, hu, hru⟩ := setUnionWithMethod_spec ptr hrs hrt (hle.trans hn)
      (hle.trans_lt hfuel)
    exact ⟨u, by simp [Program.build, hs, ht, hu], hru⟩
  | intersection p q ihp ihq =>
    obtain ⟨hp, hq⟩ := hp
    obtain ⟨s, hs, hrs⟩ := ihp hp
    obtain ⟨t, ht, hrt⟩ := ihq hq
    obtain ⟨u, hu, hru⟩ := setIntersectionWithMethod_spec ptr hrs hrt
      (hp.ncard_le.trans hn) (hq.ncard_le.trans hn) (hp.ncard_le.trans_lt hfuel)
      (hq.ncard_le.trans_lt hfuel)
    exact ⟨u, by simp [Program.build, hs, ht, hu], hru⟩
  | difference p q ihp ihq =>
    obtain ⟨hp, hq⟩ := hp
    obtain ⟨s, hs, hrs⟩ := ihp hp
    obtain ⟨t, ht, hrt⟩ := ihq hq
    obtain ⟨u, hu, hru⟩ := setDifferenceWithMethod_spec ptr hrs hrt
      (hp.ncard_le.trans hn) (hp.ncard_le.trans_lt hfuel) (hq.ncard_le.trans_lt hfuel)
    exact ⟨u, by simp [Program.build, hs, ht, hu], hru⟩

open Classical in
/-- **The answers of a finite set** of classes: the size, membership, and what an addition within
the bound and a removal return. -/
structure Answers {cmp : α → α → ℤ} (h : IsComparator cmp) (fuel n : ℕ) (s : SetImpl α)
    (S : Set h.KeyClass) : Prop where
  /-- A set of a program has finitely many members. -/
  finite : S.Finite
  size : setSizeMethod s = S.ncard
  contains : ∀ x, setContainsMethod fuel s (some x) = some (decide (h.keyClass x ∈ S))
  add : ∀ x, (insert (h.keyClass x) S).ncard ≤ n →
    ∃ s', setAddMethod fuel .always s (some x) = some (decide (h.keyClass x ∉ S), s', .always)
  remove : ∀ x, ∃ s', setRemoveMethod fuel s (some x) = some (decide (h.keyClass x ∈ S), s')

omit [Inhabited α] in
theorem Represents.answers {hl : (mapFunctions cmp hash).Lawful} {h : IsComparator cmp.call}
    {s : SetImpl α} {S : Set h.KeyClass} (hs : Represents hl h type s S) {n fuel : ℕ}
    (hn : n ≤ intMax) (hfuel : n < fuel) (hle : S.ncard ≤ n) : Answers h fuel n s S where
  finite := hs.finite
  size := by rw [setSizeMethod_eq hs, int32_natCast (hle.trans hn)]
  contains := fun x => setContainsMethod_eq hs x (hle.trans_lt hfuel)
  add := fun x hx => by
    obtain ⟨added, s', hadd, -, hadded⟩ := setAddMethod_spec hs x (hle.trans_lt hfuel)
    exact ⟨s', by rw [hadd, hadded (hx.trans hn)]⟩
  remove := fun x => by
    obtain ⟨removed, s', hremove, -, hremoved⟩ := setRemoveMethod_spec hs x (hle.trans_lt hfuel)
    exact ⟨s', by rw [hremove, hremoved (hle.trans hn)]⟩

/-! ## The default functions

The comparator and the hash function that a set gets when it is given none: pointers are compared by
their numbers, and hashed by a mix of their bits. -/

omit [DecidableEq α] [Inhabited α] in
/-- Pointers compare by their numbers. -/
theorem setDefaultPtrCompare_isComparator (ptr : α → UInt64) :
    IsComparator (setDefaultPtrCompare ptr).call where
  neg_iff := fun a b => by
    simp only [setDefaultPtrCompare, gt_iff_lt, UInt64.lt_iff_toNat_lt]
    split <;> split <;> omega
  le_trans := fun {a b c} hab hbc => by
    simp only [setDefaultPtrCompare, gt_iff_lt, UInt64.lt_iff_toNat_lt] at hab hbc ⊢
    split at hab <;> split at hab <;> split at hbc <;> split at hbc <;> split <;> split <;> omega

omit [DecidableEq α] [Inhabited α] in
/-- The functions of a set made without any are in order: the hash depends on the number of the
pointer only. -/
theorem defaultFunctions_lawful (ptr : α → UInt64) :
    (mapFunctions (setDefaultPtrCompare ptr) (setDefaultPtrHash ptr)).Lawful where
  hash_lt := fun k capacity hcap => by
    simp only [mapFunctions, setDefaultPtrHash, if_neg hcap.ne']
    exact Nat.mod_lt _ hcap
  equivalence := by
    rintro _ ⟨⟩
    exact (setDefaultPtrCompare_isComparator ptr).equivalence
  hash_eq := by
    rintro _ ⟨⟩ a b hab capacity hcap
    have hptr : ptr a = ptr b := by
      simp only [setDefaultPtrCompare, gt_iff_lt, UInt64.lt_iff_toNat_lt] at hab
      refine UInt64.toNat_inj.mp ?_
      split at hab <;> split at hab <;> omega
    simp only [mapFunctions, setDefaultPtrHash, hptr]

/-! ## The algebra -/

/-- Two sets with the same members. -/
def SameMembers (fuel : ℕ) (s t : SetImpl α) : Prop :=
  ∀ x, setContainsMethod fuel s x = setContainsMethod fuel t x

omit [Inhabited α] in
theorem Represents.sameMembers {hl : (mapFunctions cmp hash).Lawful} {h : IsComparator cmp.call}
    {s t : SetImpl α} {S : Set h.KeyClass} (hs : Represents hl h type s S)
    (ht : Represents hl h type t S) {fuel : ℕ} (hfuel : S.ncard < fuel) :
    SameMembers fuel s t := by
  intro x
  cases x with
  | none =>
    cases hs <;> cases ht
    · rfl
    · rfl
  | some x =>
    classical
    rw [setContainsMethod_eq hs x hfuel, setContainsMethod_eq ht x hfuel]

/-- Programs that denote the same set make sets with the same members. -/
theorem build_sameMembers (ptr : α → UInt64) (hl : (mapFunctions cmp hash).Lawful)
    (h : IsComparator cmp.call) {n fuel : ℕ} (hn : n ≤ intMax) (hfuel : n < fuel)
    {p q : Program α} (hp : p.Bounded h n) (hq : q.Bounded h n)
    (heq : p.denote h = q.denote h) :
    ∃ s t, p.build ptr type cmp hash fuel = some s ∧ q.build ptr type cmp hash fuel = some t ∧
      SameMembers fuel s t := by
  obtain ⟨s, hs, hrs⟩ := build_represents ptr type hl h hn hfuel hp
  obtain ⟨t, ht, hrt⟩ := build_represents ptr type hl h hn hfuel hq
  exact ⟨s, t, hs, ht, hrs.sameMembers (heq ▸ hrt) (hp.ncard_le.trans_lt hfuel)⟩

open Classical in
/-- **Both kinds of set are finite sets** of comparator classes, as long as no set on the way has
more than `INT_MAX` members. Every set made by additions, removals, unions, intersections and
differences gives the answers of the set it stands for; one is a subset of another when it is;
unions commute and associate, and the order of the operands of an intersection does not
matter. -/
theorem sets_are_finite_sets (ptr : α → UInt64) (type : SetType)
    (hl : (mapFunctions cmp hash).Lawful) (h : IsComparator cmp.call) {n fuel : ℕ}
    (hn : n ≤ intMax) (hfuel : n < fuel) :
    (∀ p : Program α, p.Bounded h n →
      ∃ s, p.build ptr type cmp hash fuel = some s ∧ Answers h fuel n s (p.denote h)) ∧
    (∀ (p q : Program α) (s t : SetImpl α), p.Bounded h n → q.Bounded h n →
      p.build ptr type cmp hash fuel = some s → q.build ptr type cmp hash fuel = some t →
        setIsSubsetOfMethod fuel .always s t =
          some (decide (p.denote h ⊆ q.denote h), .always)) ∧
    (∀ p q : Program α, (p.union q).Bounded h n →
      ∃ s t, (p.union q).build ptr type cmp hash fuel = some s ∧
        (q.union p).build ptr type cmp hash fuel = some t ∧ SameMembers fuel s t) ∧
    (∀ p q r : Program α, ((p.union q).union r).Bounded h n →
      ∃ s t, ((p.union q).union r).build ptr type cmp hash fuel = some s ∧
        (p.union (q.union r)).build ptr type cmp hash fuel = some t ∧ SameMembers fuel s t) ∧
    (∀ p q : Program α, p.Bounded h n → q.Bounded h n →
      ∃ s t, (p.intersection q).build ptr type cmp hash fuel = some s ∧
        (q.intersection p).build ptr type cmp hash fuel = some t ∧ SameMembers fuel s t) := by
  refine ⟨fun p hp => ?_, fun p q s t hp hq hs ht => ?_, fun p q hpq => ?_, fun p q r hpqr => ?_,
    fun p q hp hq => ?_⟩
  · obtain ⟨s, hs, hrep⟩ := build_represents ptr type hl h hn hfuel hp
    exact ⟨s, hs, hrep.answers hn hfuel hp.ncard_le⟩
  · obtain ⟨s', hs', hrs⟩ := build_represents ptr type hl h hn hfuel hp
    obtain ⟨t', ht', hrt⟩ := build_represents ptr type hl h hn hfuel hq
    obtain rfl := Option.some.inj (hs'.symm.trans hs)
    obtain rfl := Option.some.inj (ht'.symm.trans ht)
    exact setIsSubsetOfMethod_eq hrs hrt (hp.ncard_le.trans hn) (hp.ncard_le.trans_lt hfuel)
      (hq.ncard_le.trans_lt hfuel)
  · exact build_sameMembers ptr hl h hn hfuel hpq hpq.union_comm (Set.union_comm _ _)
  · exact build_sameMembers ptr hl h hn hfuel hpqr hpqr.union_assoc (Set.union_assoc _ _ _)
  · have hpq : (p.intersection q).Bounded h n := ⟨hp, hq⟩
    have hqp : (q.intersection p).Bounded h n := ⟨hq, hp⟩
    exact build_sameMembers ptr hl h hn hfuel hpq hqp (Set.inter_comm _ _)

/-- Numbers, compared by subtraction and hashed by their remainder. -/
def subtractPtr : FnPtr (ℕ → ℕ → ℤ) := ⟨1, fun a b => (a : ℤ) - b⟩

/-- The hash function that goes with `subtractPtr`. -/
def remainderPtr : FnPtr (ℕ → ℕ → ℕ) := ⟨2, fun k capacity => k % capacity⟩

theorem subtractPtr_isComparator : IsComparator subtractPtr.call where
  neg_iff := fun a b => by
    simp only [subtractPtr]
    omega
  le_trans := fun {a b c} hab hbc => by
    simp only [subtractPtr] at hab hbc ⊢
    omega

theorem remainderPtr_lawful : (mapFunctions subtractPtr remainderPtr).Lawful :=
  Map.remainderFunctions_lawful

/-- The union of a hash set of 1 and 2 and one of 2 and 3 is a set of at most three numbers, and
each is a subset of it. -/
theorem sets_are_finite_sets_union :
    let p : Program ℕ := (Program.create.add 1).add 2
    let q : Program ℕ := (Program.create.add 2).add 3
    ∃ s t, p.build UInt64.ofNat .hash subtractPtr remainderPtr 5 = some s ∧
      (p.union q).build UInt64.ofNat .hash subtractPtr remainderPtr 5 = some t ∧
      setIsSubsetOfMethod 5 .always s t = some (true, .always) := by
  intro p q
  have hbound : ∀ (S : Set subtractPtr_isComparator.KeyClass) (c d : ℕ), S.ncard ≤ c →
      c + 1 ≤ d → ∀ g, (insert g S).ncard ≤ d :=
    fun S c d hS hcd g => (Set.ncard_insert_le g S).trans (by omega)
  have hempty : (∅ : Set subtractPtr_isComparator.KeyClass).ncard ≤ 0 := by simp
  have hp : p.Bounded subtractPtr_isComparator 4 :=
    ⟨⟨trivial, hbound _ 0 4 hempty (by omega) _⟩,
      hbound _ 1 4 (hbound _ 0 1 hempty (by omega) _) (by omega) _⟩
  have hq : q.Bounded subtractPtr_isComparator 4 :=
    ⟨⟨trivial, hbound _ 0 4 hempty (by omega) _⟩,
      hbound _ 1 4 (hbound _ 0 1 hempty (by omega) _) (by omega) _⟩
  have hpq : (p.union q).Bounded subtractPtr_isComparator 4 := by
    refine ⟨hp, hq, (Set.ncard_union_le _ _).trans ?_⟩
    have hle := hbound _ 1 2 (hbound ∅ 0 1 hempty (by omega) (subtractPtr_isComparator.keyClass 1))
      (by omega) (subtractPtr_isComparator.keyClass 2)
    have hle' := hbound _ 1 2 (hbound ∅ 0 1 hempty (by omega) (subtractPtr_isComparator.keyClass 2))
      (by omega) (subtractPtr_isComparator.keyClass 3)
    exact Nat.add_le_add hle hle'
  obtain ⟨hmake, hsubset, -⟩ := sets_are_finite_sets UInt64.ofNat .hash remainderPtr_lawful
    subtractPtr_isComparator (show 4 ≤ intMax by decide) (show 4 < 5 by omega)
  obtain ⟨s, hs, -⟩ := hmake p hp
  obtain ⟨t, ht, -⟩ := hmake (p.union q) hpq
  refine ⟨s, t, hs, ht, ?_⟩
  have hsub : p.denote subtractPtr_isComparator ⊆ (p.union q).denote subtractPtr_isComparator :=
    Set.subset_union_left
  rw [hsubset p (p.union q) s t hp hpq hs ht]
  simp [hsub]

/-! ## One member too many -/

/-- Additions of the elements of a list to an empty set. -/
def Program.addAll (xs : List α) : Program α := xs.foldl Program.add .create

omit [DecidableEq α] [Inhabited α] in
theorem Program.addAll_concat (xs : List α) (x : α) :
    Program.addAll (xs ++ [x]) = (Program.addAll xs).add x := by
  rw [addAll, List.foldl_append]
  rfl

omit [DecidableEq α] [Inhabited α] in
theorem Program.denote_addAll {cmp : α → α → ℤ} (h : IsComparator cmp) (xs : List α) :
    (Program.addAll xs).denote h = {c | ∃ x ∈ xs, h.keyClass x = c} := by
  induction xs using List.reverseRecOn with
  | nil => simp [addAll, denote]
  | append_singleton xs x ih =>
    rw [addAll_concat, denote, ih]
    ext c
    simp only [Set.mem_insert_iff, Set.mem_ofPred_eq, List.mem_append, List.mem_singleton]
    constructor
    · rintro (rfl | ⟨y, hy, rfl⟩)
      exacts [⟨x, .inr rfl, rfl⟩, ⟨y, .inl hy, rfl⟩]
    · rintro ⟨y, hy | rfl, rfl⟩
      exacts [.inr ⟨y, hy, rfl⟩, .inl rfl]

/-- Additions alone make a set of any size. -/
theorem build_addAll (ptr : α → UInt64) (type : SetType) (hl : (mapFunctions cmp hash).Lawful)
    (h : IsComparator cmp.call) (xs : List α) {fuel : ℕ} (hfuel : xs.length < fuel) :
    ∃ s, (Program.addAll xs).build ptr type cmp hash fuel = some s ∧
      Represents hl h type s ((Program.addAll xs).denote h) := by
  have hcard : ∀ ys : List α, ((Program.addAll ys).denote h).ncard ≤ ys.length := by
    intro ys
    induction ys using List.reverseRecOn with
    | nil => simp [Program.addAll, Program.denote]
    | append_singleton ys y ih =>
      rw [Program.addAll_concat, Program.denote, List.length_append, List.length_singleton]
      exact (Set.ncard_insert_le _ _).trans (Nat.add_le_add_right ih 1)
  induction xs using List.reverseRecOn with
  | nil =>
    obtain ⟨s, hs, hrep⟩ := createSetWithCapacity_spec ptr hl h type (fun _ => rfl) 0
    exact ⟨s, by rw [Program.addAll, List.foldl_nil, Program.build, createSet, hs], hrep⟩
  | append_singleton xs x ih =>
    rw [List.length_append, List.length_singleton] at hfuel
    obtain ⟨s, hs, hrep⟩ := ih (by omega)
    have hlt : ((Program.addAll xs).denote h).ncard < fuel :=
      (hcard xs).trans_lt (Nat.lt_of_succ_lt hfuel)
    obtain ⟨added, s', hadd, hrep', -⟩ := setAddMethod_spec hrep x hlt
    rw [Program.addAll_concat]
    exact ⟨s', by simp [Program.build, hs, hadd], hrep'⟩

/-- `2 ^ 31` different additions succeed, and the size is not the number of members. -/
theorem size_beyond_intMax :
    ∃ s, (Program.addAll (List.range (intMax + 1))).build UInt64.ofNat .tree subtractPtr
        remainderPtr (intMax + 2) = some s ∧
      setSizeMethod s ≠
        ((Program.addAll (List.range (intMax + 1))).denote subtractPtr_isComparator).ncard := by
  obtain ⟨n, hn⟩ : ∃ n, n = intMax + 1 := ⟨_, rfl⟩
  have hfuel : intMax + 2 = n + 1 := by omega
  rw [hfuel, ← hn]
  obtain ⟨s, hs, hrep⟩ := build_addAll UInt64.ofNat .tree remainderPtr_lawful
    subtractPtr_isComparator (List.range n) (show (List.range n).length < n + 1 by simp)
  refine ⟨s, hs, ?_⟩
  have henum : Enumerates subtractPtr_isComparator.keyClass (List.range n)
      ((Program.addAll (List.range n)).denote subtractPtr_isComparator) := by
    refine ⟨List.Nodup.map ?_ List.nodup_range, fun c => ?_⟩
    · intro i j hij
      have hzero := subtractPtr_isComparator.keyClass_eq_iff.mp hij
      simp only [subtractPtr] at hzero
      omega
    · rw [Program.denote_addAll]
      rfl
  rw [setSizeMethod_eq hrep, henum.ncard_eq, List.length_range]
  have hle := int32_le n
  omega

end Sets

end OvaLib
