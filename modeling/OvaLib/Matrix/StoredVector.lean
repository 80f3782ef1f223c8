import Mathlib.Algebra.BigOperators.Intervals
import Mathlib.Tactic.Abel
import OvaLib.Matrix.StorageRules

/-!
# The vectors on the heap

A vector on the heap has three blocks. Its methods only write to blocks of its own or to those of a
new vector, whatever else the heap holds.

The layout is that of a matrix without the table. The rules are of the same form: a new vector, or
the heap as it was and `NULL`. What differs is `resize`, which goes through `realloc` and fills the
new elements with zeros itself, and the dot product, which has four partial sums with AVX. The loop
of the dot product keeps the elements with an index that is 0 modulo 4 in the first lane, and so on,
and the sum of the lanes is the sum of all products so far.

## Main results

* `runs_createVector`, `runs_vectorFreeMethod` — a vector comes and goes
* `runs_vectorPointwise`, `runs_vectorScaleSimd`, `runs_vectorCopyMethod` — a new vector, or nothing
* `runs_vectorDotProductSimd` — the sum of products, in four lanes or in one
* `runs_vectorResizeMethod` — the old elements, and zeros
-/

namespace OvaLib

namespace Matrix

namespace Storage

open Foundation

variable {R : Type} {sure : Prop} {s F : Multiset (ℕ × List (Cell R))} {i n : ℕ}

/-! ## A vector on the heap -/

/-- A vector on the heap: where its blocks are, and its elements. The size is positive, and the
elements beyond it do not matter. -/
structure VectorRep (R : Type) where
  object : ℕ
  impl : ℕ
  data : ℕ
  size : ℕ
  size_pos : 0 < size
  /-- The elements; beyond the size they do not count. -/
  entries : ℕ → R

namespace VectorRep

/-- The vector with other elements. -/
def put (v : VectorRep R) (f : ℕ → R) : VectorRep R := { v with entries := f }

/-- What `vector_impl_from_vector` reads. -/
def fields (v : VectorRep R) : VectorFields := ⟨start v.impl, start v.data, v.size⟩

/-- The blocks of a vector but for the elements. -/
def header (v : VectorRep R) : Multiset (ℕ × List (Cell R)) :=
  pointsTo v.impl [.pointer (start v.data), .int v.size] +
    pointsTo v.object [.pointer (start v.impl)]

/-- The blocks of a vector. -/
def blocks (v : VectorRep R) : Multiset (ℕ × List (Cell R)) :=
  pointsTo v.data (numbers v.size v.entries) + v.header

variable {v : VectorRep R}

theorem object_le : pointsTo v.object [.pointer (start v.impl)] ≤ v.blocks :=
  (Multiset.le_add_left _ _).trans (Multiset.le_add_left _ _)

theorem impl_le : pointsTo v.impl [.pointer (start v.data), .int v.size] ≤ v.blocks :=
  (Multiset.le_add_right _ _).trans (Multiset.le_add_left _ _)

theorem runs_vectorImpl (hv : v.blocks ≤ s)
    {Q : Option VectorFields → Multiset (ℕ × List (Cell R)) → Prop} (hQ : Q (some v.fields) s) :
    Runs sure (vectorImplFromVector (start v.object)) s Q := by
  refine runs_bind (runs_pointerAt (object_le.trans hv) rfl ?_)
  rw [if_neg (start_ne_none _)]
  refine runs_bind (runs_pointerAt (impl_le.trans hv) rfl ?_)
  exact runs_bind (runs_intAt (impl_le.trans hv) rfl (runs_pure hQ))

theorem copies_data (hv : v.blocks ≤ s) : Copies sure s v.fields.data v.size v.entries := by
  intro i hi Q hQ
  refine runs_cellAt (p := ⟨v.data, 0⟩) ((Multiset.le_add_right _ _).trans hv) ?_ hQ
  rw [Nat.zero_add]
  exact numbers_getElem? hi

/-- An element is assigned. -/
theorem runs_setElement (hi : i < v.size) {x : R} {Q : Unit → Multiset (ℕ × List (Cell R)) → Prop}
    (hs : s = v.blocks + F) (hQ : Q () ((v.put (Function.update v.entries i x)).blocks + F)) :
    Runs sure (setCell v.fields.data i (.number x)) s Q := by
  refine runs_setField (hs.trans (add_assoc _ _ _)) ?_ ?_
  · rwa [length_numbers]
  · rw [numbers_set, ← add_assoc]
    exact hQ

end VectorRep

/-- The first `n` elements come from one function, the others from another: what a vector holds
while it is being written from left to right. -/
def splice (f g : ℕ → R) (n k : ℕ) : R := if k < n then f k else g k

theorem splice_zero (f g : ℕ → R) : splice f g 0 = g := by
  funext k
  exact if_neg (Nat.not_lt_zero k)

theorem splice_succ (f g : ℕ → R) (n : ℕ) :
    splice f g (n + 1) = Function.update (splice f g n) n (f n) := by
  funext k
  rw [Function.update_apply, splice, splice]
  by_cases hk : k = n
  · rw [if_pos hk, if_pos (by omega), hk]
  · rw [if_neg hk]
    exact if_congr (by omega) rfl rfl

/-- The elements are written from left to right. -/
theorem VectorRep.writes_data (v : VectorRep R) (f : ℕ → R) :
    Writes sure (fun i => (v.put (splice f v.entries i)).blocks + F) v.fields.data v.size f := by
  intro i hi Q hQ
  dsimp only at hQ
  rw [splice_succ] at hQ
  exact VectorRep.runs_setElement (v := v.put (splice f v.entries i)) hi rfl hQ

theorem VectorRep.put_splice_zero (v : VectorRep R) (f : ℕ → R) :
    v.blocks + F = (v.put (splice f v.entries 0)).blocks + F := by
  rw [splice_zero]
  rfl

section

variable [Ring R]

/-! ## New vectors

As for matrices, with two operands that may be one. -/

/-- **A vector is created**, or the heap is as it was. -/
theorem runs_createVector {size : ℤ} {Q : Option Pointer → Multiset (ℕ × List (Cell R)) → Prop}
    (hnone : (0 < size → ¬ sure) → Q none s)
    (hsome : ∀ v : VectorRep R, v.size = size → v.entries = 0 → Q (start v.object) (v.blocks + s)) :
    Runs sure (createVector size) s Q := by
  rw [createVector]
  split
  · next hdim => exact runs_pure (hnone fun hsize => by omega)
  next hdim =>
  lift size to ℕ using by omega
  rw [Int.toNat_natCast]
  have hfail : ¬ sure → Q none s := fun h => hnone fun _ => h
  refine runs_bind (runs_calloc (fun h => runs_pure (hfail h)) fun object => ?_)
  rw [if_neg (start_ne_none _)]
  refine runs_bind (runs_calloc (fun h => ?_) fun impl => ?_)
  · exact runs_bind (runs_freeStart rfl (runs_pure (hfail h)))
  rw [if_neg (start_ne_none _)]
  refine runs_bind (runs_calloc (fun h => ?_) fun data => ?_)
  · refine runs_bind (runs_setField rfl (by simp) ?_)
    exact runs_bind (runs_freeStart rfl (runs_bind (runs_freeStart rfl (runs_pure (hfail h)))))
  refine runs_bind (runs_setField (add_left_comm _ _ _) (by simp) ?_)
  rw [if_neg (start_ne_none _)]
  refine runs_bind (runs_setField rfl (by simp) ?_)
  refine runs_bind (runs_setField (add_third_comm _ _ _ _) (by simp) (runs_pure ?_))
  have hv := hsome ⟨object, impl, data, size, by omega, 0⟩ rfl rfl
  convert hv using 1
  rw [numbers_zero, VectorRep.blocks, VectorRep.header]
  simp only [List.set_cons_zero, List.set_cons_succ]
  ac_rfl

/-- A function that creates a vector and fills it. What it does on a failure is proved here once. -/
theorem runs_newVector {size : ℤ} {k : VectorFields → Effect R Unit}
    {Q : Option Pointer → Multiset (ℕ × List (Cell R)) → Prop}
    (hnone : (0 < size → ¬ sure) → Q none s)
    (hsome : ∀ v : VectorRep R, v.size = size →
      Runs sure (k v.fields) (v.blocks + s) fun _ s' => Q (start v.object) s') :
    Runs sure (do
      let result ← createVector size
      match ← vectorImplFromVector result with
      | none => return none
      | some out =>
        k out
        return result) s Q := by
  refine runs_bind (runs_createVector (fun h => ?_) fun v hsize hzero => ?_)
  · exact runs_bind (runs_pure (runs_pure (hnone h)))
  · refine runs_bind (VectorRep.runs_vectorImpl (Multiset.le_add_right _ _) ?_)
    exact runs_bind ((hsome v hsize).mono fun _ _ hQ => runs_pure hQ)

/-- **A vector of two others, element by element**, with AVX and without. -/
theorem runs_vectorPointwise {op : R → R → R} {avx : Bool} {a b : VectorRep R} (ha : a.blocks ≤ s)
    (hb : b.blocks ≤ s) {Q : Option Pointer → Multiset (ℕ × List (Cell R)) → Prop}
    (hnone : (a.size = b.size → ¬ sure) → Q none s)
    (hsome : a.size = b.size → ∀ v : VectorRep R, v.size = a.size →
      (∀ i < a.size, v.entries i = op (a.entries i) (b.entries i)) →
      Q (start v.object) (v.blocks + s)) :
    Runs sure (vectorPointwise op avx (start a.object) (start b.object)) s Q := by
  refine runs_bind (VectorRep.runs_vectorImpl ha ?_)
  refine runs_bind (VectorRep.runs_vectorImpl hb ?_)
  dsimp only
  split
  · next hdim => exact runs_pure (hnone fun h => absurd (congrArg Nat.cast h) hdim)
  next hdim =>
  have hsize : a.size = b.size := Int.natCast_inj.mp (not_not.mp hdim)
  refine runs_newVector (fun h => hnone fun _ => h (Int.natCast_pos.mpr a.size_pos)) fun v hv => ?_
  have hva : v.size = a.size := Int.natCast_inj.mp hv
  have hrest : ∀ f, s ≤ (v.put f).blocks + s := fun f => Multiset.le_add_left _ _
  dsimp only [VectorRep.fields]
  rw [Int.toNat_natCast]
  refine runs_pointwise avx op ((v.writes_data fun i => op (a.entries i) (b.entries i)).mono
    (Nat.le_of_eq hva.symm)) (fun i hi => ?_) (fun i hi => ?_) (v.put_splice_zero _) ?_
  · exact (VectorRep.copies_data (ha.trans (hrest _))).reads
  · exact (VectorRep.copies_data (hb.trans (hrest _))).reads.mono (Nat.le_of_eq hsize)
  · exact hsome hsize (v.put (splice _ v.entries a.size)) hva fun i hi => if_pos hi

/-- **A vector times a scalar**, with AVX and without. -/
theorem runs_vectorScaleSimd {avx : Bool} {a : VectorRep R} (ha : a.blocks ≤ s) {scalar : R}
    {Q : Option Pointer → Multiset (ℕ × List (Cell R)) → Prop} (hnone : ¬ sure → Q none s)
    (hsome : ∀ v : VectorRep R, v.size = a.size →
      (∀ i < a.size, v.entries i = a.entries i * scalar) → Q (start v.object) (v.blocks + s)) :
    Runs sure (vectorScaleSimd avx (start a.object) scalar) s Q := by
  refine runs_bind (VectorRep.runs_vectorImpl ha ?_)
  refine runs_newVector (fun h => hnone (h (Int.natCast_pos.mpr a.size_pos))) fun v hv => ?_
  have hva : v.size = a.size := Int.natCast_inj.mp hv
  have hread : ∀ f, Reads sure ((v.put f).blocks + s) (start a.data) a.size a.entries := fun f =>
    (VectorRep.copies_data (ha.trans (Multiset.le_add_left _ _))).reads
  dsimp only [VectorRep.fields]
  rw [Int.toNat_natCast]
  refine runs_elementwise avx ((v.writes_data fun i => a.entries i * scalar).mono
    (Nat.le_of_eq hva.symm)) (fun i hi Q hQ => ?_) (fun i hi Q hQ => ?_) (v.put_splice_zero _) ?_
  · exact runs_bind (runs_loaduPd (hread _) hi (runs_pure hQ))
  · exact runs_bind (hread _ i hi _ (runs_pure hQ))
  · exact hsome (v.put (splice _ v.entries a.size)) hva fun i hi => if_pos hi

/-- **The copy.** -/
theorem runs_vectorCopyMethod {a : VectorRep R} (ha : a.blocks ≤ s)
    {Q : Option Pointer → Multiset (ℕ × List (Cell R)) → Prop} (hnone : ¬ sure → Q none s)
    (hsome : ∀ v : VectorRep R, v.size = a.size → (∀ i < a.size, v.entries i = a.entries i) →
      Q (start v.object) (v.blocks + s)) :
    Runs sure (vectorCopyMethod (start a.object)) s Q := by
  refine runs_bind (VectorRep.runs_vectorImpl ha ?_)
  refine runs_newVector (fun h => hnone (h (Int.natCast_pos.mpr a.size_pos))) fun v hv => ?_
  have hva : v.size = a.size := Int.natCast_inj.mp hv
  dsimp only [VectorRep.fields]
  rw [Int.toNat_natCast]
  refine runs_memcpy ((v.writes_data a.entries).mono (Nat.le_of_eq hva.symm)) (fun i hi => ?_)
    (v.put_splice_zero _) ?_
  · exact VectorRep.copies_data (ha.trans (Multiset.le_add_left _ _))
  · exact hsome (v.put (splice _ v.entries a.size)) hva fun i hi => if_pos hi

/-! ## Methods that read, write or replace elements -/

omit [Ring R] in
/-- An `int` index is in range. -/
theorem inVector_iff {index : ℤ} {v : VectorRep R} :
    ¬ (index < 0 ∨ index ≥ v.size) ↔ ∃ i < v.size, index = (i : ℤ) := by
  constructor
  · intro h
    exact ⟨index.toNat, by omega, by omega⟩
  · rintro ⟨i, hi, rfl⟩
    omega

/-- `get`; 0 outside the vector. -/
theorem runs_vectorGetMethod {v : VectorRep R} (hv : v.blocks ≤ s) {index : ℤ}
    {Q : R → Multiset (ℕ × List (Cell R)) → Prop}
    (hin : ∀ i < v.size, index = i → Q (v.entries i) s)
    (hout : (¬ ∃ i < v.size, index = (i : ℤ)) → Q 0 s) :
    Runs sure (vectorGetMethod (start v.object) index) s Q := by
  refine runs_bind (VectorRep.runs_vectorImpl hv ?_)
  dsimp only
  split
  · next h => exact runs_pure (hout fun hex => inVector_iff.mpr hex h)
  · next h =>
    obtain ⟨i, hi, rfl⟩ := inVector_iff.mp h
    exact (VectorRep.copies_data hv).reads i hi _ (hin i hi rfl)

omit [Ring R] in
/-- `set`; -1 outside the vector. -/
theorem runs_vectorSetMethod {v : VectorRep R} (hs : s = v.blocks + F) {index : ℤ} {value : R}
    {Q : ℤ → Multiset (ℕ × List (Cell R)) → Prop}
    (hin : ∀ i < v.size, index = i →
      Q 0 ((v.put (Function.update v.entries i value)).blocks + F))
    (hout : (¬ ∃ i < v.size, index = (i : ℤ)) → Q (-1) s) :
    Runs sure (vectorSetMethod (start v.object) index value) s Q := by
  subst hs
  refine runs_bind (VectorRep.runs_vectorImpl (Multiset.le_add_right _ _) ?_)
  dsimp only
  split
  · next h => exact runs_pure (hout fun hex => inVector_iff.mpr hex h)
  · next h =>
    obtain ⟨i, hi, rfl⟩ := inVector_iff.mp h
    exact runs_bind (VectorRep.runs_setElement hi rfl (runs_pure (hin i hi rfl)))

/-- What four lanes have summed up. -/
def Lanes.total (acc : Lanes R) : R := acc.x0 + acc.x1 + acc.x2 + acc.x3

/-- Four products more, one in each lane. -/
theorem total_add_products (acc : Lanes R) (x y : ℕ → R) (i : ℕ) :
    (acc.map₂ (· + ·) (Lanes.map₂ (· * ·) ⟨x i, x (i + 1), x (i + 2), x (i + 3)⟩
      ⟨y i, y (i + 1), y (i + 2), y (i + 3)⟩)).total =
      acc.total + (x i * y i + x (i + 1) * y (i + 1) + x (i + 2) * y (i + 2) +
        x (i + 3) * y (i + 3)) := by
  simp only [Lanes.total, Lanes.map₂]
  abel

/-- **The dot product**, with AVX and without; 0 for vectors of two sizes. In exact arithmetic the
order in which the products are summed up does not matter, so the lanes cannot be seen in the
result. -/
theorem runs_vectorDotProductSimd {avx : Bool} {a b : VectorRep R} (ha : a.blocks ≤ s)
    (hb : b.blocks ≤ s) {Q : R → Multiset (ℕ × List (Cell R)) → Prop}
    (hmismatch : a.size ≠ b.size → Q 0 s)
    (hdot : a.size = b.size → Q (∑ i ∈ Finset.range a.size, a.entries i * b.entries i) s) :
    Runs sure (vectorDotProductSimd avx (start a.object) (start b.object)) s Q := by
  refine runs_bind (VectorRep.runs_vectorImpl ha ?_)
  refine runs_bind (VectorRep.runs_vectorImpl hb ?_)
  dsimp only
  split
  · next hdim => exact runs_pure (hmismatch fun h => hdim (congrArg Nat.cast h))
  next hdim =>
  have hsize : a.size = b.size := Int.natCast_inj.mp (not_not.mp hdim)
  have hx : Reads sure s a.fields.data a.size a.entries := (VectorRep.copies_data ha).reads
  have hy : Reads sure s b.fields.data a.size b.entries :=
    (VectorRep.copies_data hb).reads.mono (Nat.le_of_eq hsize)
  have hn : a.fields.size.toNat = a.size := Int.toNat_natCast _
  rw [hn]
  -- the loop over what the lanes have left
  have hrest : ∀ i ≤ a.size, Runs sure
      (do
        let r ← strides 1 a.size (fun i sum => do
          let x ← numberAt a.fields.data i
          let y ← numberAt b.fields.data i
          pure (sum + x * y)) (a.size + 1) i (∑ k ∈ Finset.range i, a.entries k * b.entries k)
        return r.2) s Q := by
    intro i hi
    refine runs_bind (runs_strides (fun i sum s' => s' = s ∧
      sum = ∑ k ∈ Finset.range i, a.entries k * b.entries k) Nat.one_pos ?_ (by omega) hi
      ⟨rfl, rfl⟩ ?_)
    · rintro i _ _ hin ⟨rfl, rfl⟩
      refine runs_bind (hx i hin _ (runs_bind (hy i hin _ (runs_pure ⟨rfl, ?_⟩))))
      rw [Finset.sum_range_succ]
    · rintro i _ _ hin hend ⟨rfl, rfl⟩
      obtain rfl : i = a.size := by omega
      exact runs_pure (hdot hsize)
  cases avx with
  | false =>
    have hall := hrest 0 (Nat.zero_le _)
    rw [Finset.sum_range_zero] at hall
    exact hall
  | true =>
    refine runs_bind (runs_strides (fun i (acc : Lanes R) s' => s' = s ∧
      acc.total = ∑ k ∈ Finset.range i, a.entries k * b.entries k) (show 0 < 4 by omega) ?_
      (show a.size < 0 + (a.size + 1) by omega) (Nat.zero_le _) ⟨rfl, ?_⟩ ?_)
    · rintro i acc _ hin ⟨rfl, hacc⟩
      refine runs_bind (runs_loaduPd hx hin (runs_bind (runs_loaduPd hy hin (runs_pure ⟨rfl, ?_⟩))))
      rw [total_add_products, hacc, Finset.sum_range_succ, Finset.sum_range_succ,
        Finset.sum_range_succ, Finset.sum_range_succ]
      abel
    · rw [Finset.sum_range_zero, Lanes.total, Lanes.splat, add_zero, add_zero, add_zero]
    · rintro i acc _ hin - ⟨rfl, hacc⟩
      have hall := hrest i hin
      rw [← hacc] at hall
      exact runs_bind (runs_pure hall)

/-- `n` cells, of which the first `i` are numbers: the array in the middle of being filled up with
zeros. The cells that `realloc` has added are not initialised until then. -/
def partly (n i : ℕ) (f : ℕ → R) : List (Cell R) :=
  (List.range n).map fun k => if k < i then .number (f k) else .raw

omit [Ring R] in
theorem partly_set (f : ℕ → R) (hi : i < n) :
    (partly n i f).set i (.number (f i)) = partly n (i + 1) f := by
  refine List.ext_getElem? fun k => ?_
  rw [List.getElem?_set, partly, partly, List.length_map, List.length_range, if_pos hi]
  by_cases hk : k < n
  · rw [List.getElem?_map, List.getElem?_map, List.getElem?_range hk, Option.map_some,
      Option.map_some]
    by_cases hki : i = k
    · rw [if_pos hki, if_pos (by omega), hki]
    · rw [if_neg hki]
      exact congrArg some (if_congr (by omega) rfl rfl)
  · rw [if_neg (by omega), List.getElem?_map, List.getElem?_map, List.getElem?_eq_none]
    · rfl
    · rw [List.length_range]
      omega

omit [Ring R] in
theorem partly_all (f : ℕ → R) (hi : n ≤ i) : partly n i f = numbers n f := by
  refine List.map_congr_left fun k hk => ?_
  exact if_pos (Nat.lt_of_lt_of_le (List.mem_range.mp hk) hi)

omit [Ring R] in
/-- What `realloc` leaves. -/
theorem take_numbers_append {f g : ℕ → R} {size : ℕ} (hf : ∀ k < size, f k = g k) :
    (numbers size g).take n ++ List.replicate (n - size) .raw = partly n size f := by
  refine List.ext_getElem? fun k => ?_
  have hlen : ((numbers size g).take n).length = min n size := by
    rw [List.length_take, length_numbers]
  rw [List.getElem?_append, hlen, partly]
  by_cases hk : k < n
  · rw [List.getElem?_map, List.getElem?_range hk, Option.map_some]
    by_cases hks : k < size
    · rw [if_pos (by omega), List.getElem?_take_of_lt hk, numbers_getElem? hks, if_pos hks,
        hf k hks]
    · rw [if_neg (by omega), if_neg hks, List.getElem?_replicate, if_pos (by omega)]
  · rw [if_neg (by omega), List.getElem?_replicate, if_neg (by omega), List.getElem?_eq_none]
    rw [List.length_map, List.length_range]
    omega

/-- **`resize` keeps what it can, and fills with zeros**; -1 leaves the vector as it was. If
`realloc` fails the old block is still there, and still the one of the vector. -/
theorem runs_vectorResizeMethod {v : VectorRep R} (hs : s = v.blocks + F) {newSize : ℤ}
    {Q : ℤ → Multiset (ℕ × List (Cell R)) → Prop}
    (hbad : (0 < newSize → ¬ sure) → Q (-1) s)
    (hdone : ∀ v' : VectorRep R, v'.object = v.object → v'.size = newSize →
      (∀ i < v'.size, v'.entries i = if i < v.size then v.entries i else 0) →
      Q 0 (v'.blocks + F)) :
    Runs sure (vectorResizeMethod (start v.object) newSize) s Q := by
  subst hs
  refine runs_bind (VectorRep.runs_vectorImpl (Multiset.le_add_right _ _) ?_)
  dsimp only
  split
  · next h => exact runs_pure (hbad fun hpos => by omega)
  next hpos =>
  lift newSize to ℕ using by omega
  rw [Int.toNat_natCast]
  refine runs_bind (runs_realloc (add_assoc _ _ _) (fun h => ?_) fun data => ?_)
  · exact runs_pure (hbad fun _ => h)
  rw [if_neg (start_ne_none _), length_numbers,
    take_numbers_append (f := fun k => if k < v.size then v.entries k else 0) fun k hk => if_pos hk]
  have hstore : Runs sure
      (do
        setCell v.fields.impl 0 (.pointer (start data))
        setCell v.fields.impl 1 (.int newSize)
        return 0)
      (pointsTo data (numbers newSize fun k => if k < v.size then v.entries k else 0) +
        (v.header + F)) Q := by
    rw [VectorRep.header, add_assoc]
    refine runs_bind (runs_setField (add_left_comm _ _ _) (by simp) ?_)
    refine runs_bind (runs_setField rfl (by simp) (runs_pure ?_))
    have hv := hdone ⟨v.object, v.impl, data, newSize, by omega,
      fun k => if k < v.size then v.entries k else 0⟩ rfl rfl fun i _ => rfl
    convert hv using 1
    rw [VectorRep.blocks, VectorRep.header]
    simp only [List.set_cons_zero, List.set_cons_succ]
    ac_rfl
  have hsize : v.fields.size.toNat = v.size := Int.toNat_natCast _
  split
  · next hgrow =>
    have hlt : v.size < newSize := Int.ofNat_lt.mp hgrow
    rw [hsize]
    refine runs_bind (runs_strides (fun i _ s => v.size ≤ i ∧ s = pointsTo data (partly newSize i
      fun k => if k < v.size then v.entries k else 0) + (v.header + F)) Nat.one_pos ?_ (by omega)
      (Nat.le_of_lt hlt) ⟨Nat.le_refl _, rfl⟩ ?_)
    · rintro i ⟨⟩ _ hin ⟨hi, rfl⟩
      refine runs_setField rfl ?_ ⟨Nat.le_succ_of_le hi, ?_⟩
      · rw [partly, List.length_map, List.length_range]
        exact hin
      · rw [← partly_set _ hin, if_neg (Nat.not_lt.mpr hi)]
    · rintro i ⟨⟩ _ hin hend ⟨-, rfl⟩
      rw [partly_all _ (show newSize ≤ i by omega)]
      exact hstore
  · next hgrow =>
    have hle : newSize ≤ v.size := Int.ofNat_le.mp (Int.not_lt.mp hgrow)
    rw [partly_all _ hle]
    exact hstore

omit [Ring R] in
/-- **The blocks of a vector are freed.** -/
theorem runs_vectorFreeMethod {v : VectorRep R} (hs : s = v.blocks + F)
    {Q : Unit → Multiset (ℕ × List (Cell R)) → Prop} (hQ : Q () F) :
    Runs sure (vectorFreeMethod (start v.object)) s Q := by
  subst hs
  rw [vectorFreeMethod, if_neg (start_ne_none _)]
  refine runs_bind (VectorRep.runs_vectorImpl (Multiset.le_add_right _ _) ?_)
  rw [VectorRep.blocks, VectorRep.header, add_assoc, add_assoc]
  refine runs_bind (runs_freeStart rfl ?_)
  refine runs_bind (runs_setField rfl (by simp) ?_)
  refine runs_bind (runs_freeStart rfl ?_)
  refine runs_bind (runs_setField rfl (by simp) ?_)
  exact runs_freeStart rfl hQ

end

end Storage

end Matrix

end OvaLib
