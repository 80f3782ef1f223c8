import Mathlib.Algebra.BigOperators.Fin
import Mathlib.Data.Set.Card
import OvaLib.Matrix.Session
import OvaLib.Matrix.StoredMatrix
import OvaLib.Matrix.StoredVector

/-!
# Sessions do what they mean

The heap of a session consists of the blocks of the objects that are live, and of nothing else. Each
call keeps it so: it only touches cells of live blocks, and its answer and what becomes of the
objects are what the call means.

## What is proved at once

The theorem about one state of a session has several properties that are usually stated apart. The
call has a result, and as reading or writing a cell that is not allocated has none, it is safe. Its
answer and the objects afterwards are those of the specification. The number of blocks is that of
the live objects, so nothing is leaked, and after the last object is freed there is none. A failure
is answered only when an allocation of this very call has failed, which is found out by comparing
the heap before the call with the one after.

## How the proof goes

The blocks of the objects are a multiset of cells of the heap, and each function has a rule in the
style of separation logic: from the blocks of its arguments and any others, it runs to the blocks of
its results and the same others. The rules are in `StoredMatrix` and `StoredVector`, and here each
of them is matched with the meaning of its call. A rule only asks that the blocks of each argument
are among those on the heap, so an argument that is given twice needs no case of its own.

## Main results

* `Represents.call` — one call on a heap that represents some objects
* `session_correct` — every session, whatever allocations fail, with AVX and without
-/

namespace OvaLib

namespace Matrix

namespace Storage

open Foundation Function

variable {R : Type}

/-! ## Objects on the heap

A representation knows the addresses of the blocks; what a caller knows is the first of them. -/

/-- An object on the heap. -/
inductive Rep (R : Type)
  | matrix (m : MatrixRep R)
  | vector (v : VectorRep R)

namespace Rep

/-- The address of the public struct. -/
def pointer : Rep R → Pointer
  | .matrix m => ⟨m.object, 0⟩
  | .vector v => ⟨v.object, 0⟩

/-- The blocks. -/
def blocks : Rep R → Multiset (ℕ × List (Cell R))
  | .matrix m => m.blocks
  | .vector v => v.blocks

/-- What the object stands for. -/
def value : Rep R → Value R
  | .matrix m => .matrix m.rows m.cols (.of fun i j => m.entries i j)
  | .vector v => .vector v.size fun i => v.entries i

end Rep

/-- **The heap represents the objects**, each in blocks of its own. There are no other blocks, which
is how a leak would show. -/
inductive Represents : Multiset (ℕ × List (Cell R)) → Objects R → Prop
  | nil : Represents 0 fun _ => none
  | cons (o : Rep R) {s M} : Represents s M → M o.pointer = none →
    Represents (o.blocks + s) (update M o.pointer (some o.value))

variable {sure : Prop} {s F : Multiset (ℕ × List (Cell R))} {M M' : Objects R} {p : Pointer}

/-- The public struct of an object is one of its blocks. -/
theorem Rep.object_le (o : Rep R) : ∃ cells, pointsTo o.pointer.block cells ≤ o.blocks := by
  cases o with
  | matrix m => exact ⟨_, MatrixRep.object_le⟩
  | vector v => exact ⟨_, VectorRep.object_le⟩

theorem Represents.object_mem (h : Represents s M) (hp : M p ≠ none) :
    p.offset = 0 ∧ p.block ∈ s.map Prod.fst := by
  induction h with
  | nil => exact absurd rfl hp
  | @cons o s M hs hnone ih =>
    by_cases hpo : p = o.pointer
    · subst hpo
      refine ⟨by cases o <;> rfl, ?_⟩
      obtain ⟨cells, hle⟩ := o.object_le
      have hmem := Multiset.singleton_le.mp (hle.trans (Multiset.le_add_right _ s))
      exact Multiset.mem_map.mpr ⟨_, hmem, rfl⟩
    · rw [update_of_ne hpo] at hp
      rw [Multiset.map_add, Multiset.mem_add]
      exact ⟨(ih hp).1, .inr (ih hp).2⟩

/-- An object whose blocks are new is a new object. -/
theorem Represents.fresh (h : Represents s M) (o : Rep R)
    (hnodup : ((o.blocks + s).map Prod.fst).Nodup) : M o.pointer = none := by
  by_contra hp
  obtain ⟨cells, hle⟩ := o.object_le
  rw [Multiset.map_add, Multiset.nodup_add] at hnodup
  refine Multiset.disjoint_left.mp hnodup.2.2 ?_ (h.object_mem hp).2
  exact Multiset.mem_map.mpr ⟨_, Multiset.singleton_le.mp hle, rfl⟩

/-- One of the objects, and the others. A rule is applied to the blocks of the one, with the blocks
of the others for a frame. -/
theorem Represents.split (h : Represents s M) {value : Value R} (hp : M p = some value) :
    ∃ o : Rep R, ∃ rest, p = o.pointer ∧ value = o.value ∧ s = o.blocks + rest ∧
      Represents rest (update M p none) := by
  induction h with
  | nil => cases hp
  | @cons o s M hs hnone ih =>
    by_cases hpo : p = o.pointer
    · subst hpo
      rw [update_self] at hp
      refine ⟨o, s, rfl, (Option.some.inj hp).symm, rfl, ?_⟩
      rwa [update_idem, ← hnone, update_eq_self]
    · rw [update_of_ne hpo] at hp
      obtain ⟨o', rest, rfl, hvalue, rfl, hrest⟩ := ih hp
      refine ⟨o', o.blocks + rest, rfl, hvalue, add_left_comm _ _ _, ?_⟩
      rw [update_comm (Ne.symm hpo)]
      refine .cons o hrest ?_
      rwa [update_of_ne (Ne.symm hpo)]

/-! ## Calls

One lemma for each kind of call. -/

/-- A pointer that must be a matrix is `NULL`, or one of the objects is there. -/
theorem Represents.matrix (h : Represents s M) {q : Option Pointer} (hq : IsMatrix M q) :
    q = none ∨ ∃ m : MatrixRep R, ∃ rest, q = start m.object ∧
      M.at q = some (Rep.matrix m).value ∧ s = m.blocks + rest ∧
      Represents rest (update M ⟨m.object, 0⟩ none) := by
  refine hq.imp_right ?_
  rintro ⟨r, c, A, hA⟩
  obtain ⟨p, rfl, hp⟩ := Option.bind_eq_some_iff.mp hA
  obtain ⟨o, rest, rfl, hvalue, hs, hrest⟩ := h.split hp
  cases o with
  | vector v => cases hvalue
  | matrix m => exact ⟨m, rest, rfl, hA.trans (congrArg some hvalue), hs, hrest⟩

theorem Represents.vector (h : Represents s M) {q : Option Pointer} (hq : IsVector M q) :
    q = none ∨ ∃ v : VectorRep R, ∃ rest, q = start v.object ∧
      M.at q = some (Rep.vector v).value ∧ s = v.blocks + rest ∧
      Represents rest (update M ⟨v.object, 0⟩ none) := by
  refine hq.imp_right ?_
  rintro ⟨n, x, hx⟩
  obtain ⟨p, rfl, hp⟩ := Option.bind_eq_some_iff.mp hx
  obtain ⟨o, rest, rfl, hvalue, hs, hrest⟩ := h.split hp
  cases o with
  | matrix m => cases hvalue
  | vector v => exact ⟨v, rest, rfl, hx.trans (congrArg some hvalue), hs, hrest⟩

/-- A call that creates an object. Its address is one that no object has, as the blocks of those are
on the heap already. -/
theorem Represents.creates (h : Represents s M) {prog : Effect R (Option Pointer)}
    {value : Option (Value R)}
    (hrun : Runs sure prog s fun q s' => (q = none ∧ s' = s ∧ (sure → value = none)) ∨
      ∃ o : Rep R, q = some o.pointer ∧ s' = o.blocks + s ∧ value = some o.value) :
    Runs sure (do return Answer.object (← prog)) s fun r s' =>
      ∃ M', Creates sure M value r M' ∧ Represents s' M' := by
  refine runs_bind (hrun.nodup.mono ?_)
  rintro q s' ⟨⟨rfl, rfl, hvalue⟩ | ⟨o, rfl, rfl, hvalue⟩, hnodup⟩
  · exact runs_pure ⟨M, .inl ⟨rfl, rfl, hvalue⟩, h⟩
  · have hnone := h.fresh o hnodup
    exact runs_pure ⟨_, .inr ⟨o.pointer, o.value, hvalue, hnone, rfl, rfl⟩, h.cons o hnone⟩

/-- A call that changes an object, in blocks of its own. -/
theorem Represents.changes (h : Represents s M) {o : Rep R} {rest : Multiset (ℕ × List (Cell R))}
    (hrest : Represents rest (update M o.pointer none)) {prog : Effect R ℤ}
    {value : Option (Value R)} {must : Prop}
    (hrun : Runs sure prog s fun n s' => (n = -1 ∧ s' = s ∧ (must → value = none)) ∨
      ∃ o' : Rep R, n = 0 ∧ o'.pointer = o.pointer ∧ s' = o'.blocks + rest ∧
        value = some o'.value) :
    Runs sure (do return Answer.code (← prog)) s fun r s' =>
      ∃ M', Changes must M (some o.pointer) value r M' ∧ Represents s' M' := by
  refine runs_bind (hrun.mono ?_)
  rintro n s' (⟨rfl, rfl, hvalue⟩ | ⟨o', rfl, hpointer, rfl, hvalue⟩)
  · exact runs_pure ⟨M, .inl ⟨rfl, rfl, hvalue⟩, h⟩
  · have hcons := hrest.cons o' (by rw [hpointer, update_self])
    rw [hpointer, update_idem] at hcons
    exact runs_pure ⟨_, .inr ⟨o.pointer, o'.value, rfl, hvalue, rfl, rfl⟩, hcons⟩

/-- A call that frees an object. -/
theorem Represents.frees {o : Rep R} {rest : Multiset (ℕ × List (Cell R))}
    (hrest : Represents rest (update M o.pointer none)) {prog : Effect R Unit}
    (hrun : Runs sure prog s fun _ s' => s' = rest) :
    Runs sure (do
      prog
      return (Answer.nothing : Answer R)) s fun r s' =>
      ∃ M', Frees M (some o.pointer) r M' ∧ Represents s' M' := by
  refine runs_bind (hrun.mono ?_)
  rintro ⟨⟩ s' rfl
  exact runs_pure ⟨_, ⟨rfl, rfl⟩, hrest⟩

theorem Value.matrix_eq {r c r' c' : ℕ} {A : Matrix (Fin r) (Fin c) R}
    {B : Matrix (Fin r') (Fin c') R} (hr : r = r') (hc : c = c')
    (h : ∀ i j, A i j = B (Fin.cast hr i) (Fin.cast hc j)) :
    Value.matrix r c A = .matrix r' c' B := by
  subst hr hc
  refine congrArg (Value.matrix r c) ?_
  ext i j
  exact h i j

theorem Value.vector_eq {n n' : ℕ} {x : Fin n → R} {y : Fin n' → R} (hn : n = n')
    (h : ∀ i, x i = y (Fin.cast hn i)) : Value.vector n x = .vector n' y := by
  subst hn
  refine congrArg (Value.vector n) ?_
  funext i
  exact h i

section

variable {ρ : Type} {a b : Option Pointer} {Q : ρ → Multiset (ℕ × List (Cell R)) → Prop} {z : ρ}

/-- A function of two matrices when one of them is `NULL`. -/
theorem Represents.runs_null (h : Represents s M) (ha : IsMatrix M a) (hb : IsMatrix M b)
    (hnull : a = none ∨ b = none) (hz : Q z s)
    (k : MatrixFields → MatrixFields → Effect R ρ) :
    Runs sure (do
      let lhs ← matrixImplFromMatrix a
      let rhs ← matrixImplFromMatrix b
      match lhs, rhs with
      | some lhs, some rhs => k lhs rhs
      | _, _ => return z) s Q := by
  rcases h.matrix ha with rfl | ⟨m, resta, rfl, -, hsa, -⟩
  · refine runs_bind (runs_pure ?_)
    rcases h.matrix hb with rfl | ⟨n, restb, rfl, -, hsb, -⟩
    · exact runs_bind (runs_pure (runs_pure hz))
    · exact runs_bind (MatrixRep.runs_matrixImpl (hsb ▸ Multiset.le_add_right _ _) (runs_pure hz))
  · obtain rfl := hnull.resolve_left (start_ne_none _)
    refine runs_bind (MatrixRep.runs_matrixImpl (hsa ▸ Multiset.le_add_right _ _) ?_)
    exact runs_bind (runs_pure (runs_pure hz))

/-- A function of two vectors when one of them is `NULL`. -/
theorem Represents.runs_nullVector (h : Represents s M) (ha : IsVector M a) (hb : IsVector M b)
    (hnull : a = none ∨ b = none) (hz : Q z s)
    (k : VectorFields → VectorFields → Effect R ρ) :
    Runs sure (do
      let va ← vectorImplFromVector a
      let vb ← vectorImplFromVector b
      match va, vb with
      | some va, some vb => k va vb
      | _, _ => return z) s Q := by
  rcases h.vector ha with rfl | ⟨v, resta, rfl, -, hsa, -⟩
  · refine runs_bind (runs_pure ?_)
    rcases h.vector hb with rfl | ⟨w, restb, rfl, -, hsb, -⟩
    · exact runs_bind (runs_pure (runs_pure hz))
    · exact runs_bind (VectorRep.runs_vectorImpl (hsb ▸ Multiset.le_add_right _ _) (runs_pure hz))
  · obtain rfl := hnull.resolve_left (start_ne_none _)
    refine runs_bind (VectorRep.runs_vectorImpl (hsa ▸ Multiset.le_add_right _ _) ?_)
    exact runs_bind (runs_pure (runs_pure hz))

end

theorem combine_none_left (op : R → R → R) (y : Option (Value R)) :
    Value.combine op none y = none := by
  cases y <;> rfl

theorem combine_none_right (op : R → R → R) (x : Option (Value R)) :
    Value.combine op x none = none := by
  rcases x with _ | ⟨_ | _⟩ <;> rfl

section

variable [Ring R]

/-- The call does what it means, on the heap and for its caller: the heap represents the objects
that the specification has after the call, and the answer is the one it gives. -/
def Keeps (sure : Prop) (avx : Bool) (s : Multiset (ℕ × List (Cell R))) (M : Objects R)
    (c : Call R) : Prop :=
  Runs sure (c.run avx) s fun r s' => ∃ M', Does sure M r M' c ∧ Represents s' M'

variable {avx : Bool} (h : Represents s M) {a b : Option Pointer}

include h

/-- Two matrices entry by entry. -/
theorem Represents.matrixPointwise (op : R → R → R) (ha : IsMatrix M a)
    (hb : IsMatrix M b) :
    Runs sure (do return Answer.object (← Storage.matrixPointwise op avx a b)) s fun r s' =>
      ∃ M', Creates sure M (Value.combine op (M.at a) (M.at b)) r M' ∧ Represents s' M' := by
  refine h.creates ?_
  by_cases hnull : a = none ∨ b = none
  · refine h.runs_null ha hb hnull (.inl ⟨rfl, rfl, fun _ => ?_⟩) _
    rcases hnull with rfl | rfl
    · exact combine_none_left op _
    · exact combine_none_right op _
  obtain ⟨ha', hb'⟩ := not_or.mp hnull
  obtain ⟨m, resta, rfl, hma, hsa, -⟩ := (h.matrix ha).resolve_left ha'
  obtain ⟨n, restb, rfl, hnb, hsb, -⟩ := (h.matrix hb).resolve_left hb'
  rw [hma, hnb]
  refine runs_matrixPointwise (hsa ▸ Multiset.le_add_right _ _) (hsb ▸ Multiset.le_add_right _ _)
    (fun hfail => .inl ⟨rfl, rfl, fun hsure => ?_⟩) fun hrows hcols c hr hc hentries => .inr
    ⟨.matrix c, rfl, rfl, ?_⟩
  · exact dif_neg fun hdim => hfail hdim.1 hdim.2 hsure
  · refine (dif_pos ⟨hrows, hcols⟩).trans (congrArg some ?_)
    exact (Value.matrix_eq hr hc fun i j => hentries i (hr ▸ i.2) j (hc ▸ j.2)).symm

/-- The product of two matrices. -/
theorem Represents.matrixMultiply (ha : IsMatrix M a) (hb : IsMatrix M b) :
    Keeps sure avx s M (.matrixMultiply a b) := by
  refine h.creates ?_
  by_cases hnull : a = none ∨ b = none
  · refine h.runs_null ha hb hnull (.inl ⟨rfl, rfl, fun _ => ?_⟩) _
    rcases hnull with rfl | rfl
    · rcases M.at b with _ | ⟨_ | _⟩ <;> rfl
    · rcases M.at a with _ | ⟨_ | _⟩ <;> rfl
  obtain ⟨ha', hb'⟩ := not_or.mp hnull
  obtain ⟨m, resta, rfl, hma, hsa, -⟩ := (h.matrix ha).resolve_left ha'
  obtain ⟨n, restb, rfl, hnb, hsb, -⟩ := (h.matrix hb).resolve_left hb'
  rw [hma, hnb]
  refine runs_matrixMultiplyMethod (hsa ▸ Multiset.le_add_right _ _)
    (hsb ▸ Multiset.le_add_right _ _) (fun hfail => .inl ⟨rfl, rfl, fun hsure => ?_⟩)
    fun hinner c hr hc hentries => .inr ⟨.matrix c, rfl, rfl, ?_⟩
  · exact dif_neg fun hdim => hfail hdim hsure
  · refine (dif_pos hinner).trans (congrArg some ?_)
    refine (Value.matrix_eq hr hc fun i j => ?_).symm
    refine (hentries i (hr ▸ i.2) j (hc ▸ j.2)).trans ?_
    rw [Matrix.mul_apply]
    exact Finset.sum_range fun k => m.entries i k * n.entries k j

/-- The transpose of a matrix. -/
theorem Represents.matrixTranspose (ha : IsMatrix M a) :
    Keeps sure avx s M (.matrixTranspose a) := by
  refine h.creates ?_
  rcases h.matrix ha with rfl | ⟨m, rest, rfl, hm, hs, -⟩
  · exact runs_bind (runs_pure (runs_pure (.inl ⟨rfl, rfl, fun _ => rfl⟩)))
  rw [hm]
  refine runs_matrixTransposeMethod (hs ▸ Multiset.le_add_right _ _)
    (fun hfail => .inl ⟨rfl, rfl, fun hsure => absurd hsure hfail⟩) fun c hr hc hentries => .inr
    ⟨.matrix c, rfl, rfl, congrArg some ?_⟩
  exact (Value.matrix_eq hr hc fun i j => hentries i (hr ▸ i.2) j (hc ▸ j.2)).symm

/-- The copy of a matrix. -/
theorem Represents.matrixCopy (ha : IsMatrix M a) :
    Keeps sure avx s M (.matrixCopy a) := by
  refine h.creates ?_
  rcases h.matrix ha with rfl | ⟨m, rest, rfl, hm, hs, -⟩
  · exact runs_bind (runs_pure (runs_pure (.inl ⟨rfl, rfl, fun _ => rfl⟩)))
  rw [hm]
  refine runs_matrixCopyMethod (hs ▸ Multiset.le_add_right _ _)
    (fun hfail => .inl ⟨rfl, rfl, fun hsure => absurd hsure hfail⟩) fun c hr hc hentries => .inr
    ⟨.matrix c, rfl, rfl, congrArg some ?_⟩
  exact (Value.matrix_eq hr hc fun i j => hentries i (hr ▸ i.2) j (hc ▸ j.2)).symm

/-- An entry of a matrix. -/
theorem Represents.matrixGet (row col : ℤ) (ha : IsMatrix M a) :
    Keeps sure avx s M (.matrixGet a row col) := by
  rcases h.matrix ha with rfl | ⟨m, rest, rfl, hm, hs, -⟩
  · exact runs_bind (runs_bind (runs_pure (runs_pure (runs_pure ⟨M, ⟨rfl, rfl⟩, h⟩))))
  dsimp only [Keeps, Does]
  rw [hm]
  refine runs_bind (runs_matrixGetMethod (hs ▸ Multiset.le_add_right _ _)
    (fun x hx y hy hrow hcol => ?_) fun hout => ?_)
  · subst hrow hcol
    have hentry : Value.entry x y (some (Rep.matrix m).value) = m.entries x y :=
      dif_pos ⟨⟨Int.natCast_nonneg x, hx⟩, Int.natCast_nonneg y, hy⟩
    exact runs_pure ⟨M, ⟨congrArg Answer.number hentry.symm, rfl⟩, h⟩
  · have hentry : Value.entry row col (some (Rep.matrix m).value) = 0 := by
      refine dif_neg fun hin => hout ?_
      exact ⟨row.toNat, hin.1.2, col.toNat, hin.2.2, by omega, by omega⟩
    exact runs_pure ⟨M, ⟨congrArg Answer.number hentry.symm, rfl⟩, h⟩

/-- An entry of a matrix is assigned. -/
theorem Represents.matrixSet (row col : ℤ) (value : R) (ha : IsMatrix M a) :
    Keeps sure avx s M (.matrixSet a row col value) := by
  rcases h.matrix ha with rfl | ⟨m, rest, rfl, hm, hs, hrest⟩
  · exact runs_bind (runs_bind (runs_pure (runs_pure (runs_pure
      ⟨M, .inl ⟨rfl, rfl, fun _ => rfl⟩, h⟩))))
  dsimp only [Keeps, Does]
  rw [hm]
  refine h.changes (o := .matrix m) hrest
    (runs_matrixSetMethod hs (fun x hx y hy hrow hcol => ?_) fun hout => ?_)
  · subst hrow hcol
    refine .inr ⟨.matrix (m.put (m.entries.set x y value)), rfl, rfl, rfl, ?_⟩
    refine (if_pos ⟨⟨Int.natCast_nonneg x, hx⟩, Int.natCast_nonneg y, hy⟩).trans ?_
    refine congrArg some (congrArg (Value.matrix m.rows m.cols) ?_)
    ext i j
    exact if_congr (and_congr Int.natCast_inj Int.natCast_inj) rfl rfl
  · refine .inl ⟨rfl, rfl, fun _ => if_neg fun hin => hout ?_⟩
    exact ⟨row.toNat, hin.1.2, col.toNat, hin.2.2, by omega, by omega⟩

/-- The dimensions of a matrix. -/
theorem Represents.matrixRows (ha : IsMatrix M a) :
    Keeps sure avx s M (.matrixRows a) := by
  rcases h.matrix ha with rfl | ⟨m, rest, rfl, hm, hs, -⟩
  · exact runs_bind (runs_bind (runs_pure (runs_pure (runs_pure ⟨M, ⟨rfl, rfl⟩, h⟩))))
  dsimp only [Keeps, Does]
  rw [hm]
  refine runs_bind (runs_bind (MatrixRep.runs_matrixImpl (hs ▸ Multiset.le_add_right _ _) ?_))
  exact runs_pure (runs_pure ⟨M, ⟨rfl, rfl⟩, h⟩)

theorem Represents.matrixCols (ha : IsMatrix M a) :
    Keeps sure avx s M (.matrixCols a) := by
  rcases h.matrix ha with rfl | ⟨m, rest, rfl, hm, hs, -⟩
  · exact runs_bind (runs_bind (runs_pure (runs_pure (runs_pure ⟨M, ⟨rfl, rfl⟩, h⟩))))
  dsimp only [Keeps, Does]
  rw [hm]
  refine runs_bind (runs_bind (MatrixRep.runs_matrixImpl (hs ▸ Multiset.le_add_right _ _) ?_))
  exact runs_pure (runs_pure ⟨M, ⟨rfl, rfl⟩, h⟩)

/-- A matrix is resized. -/
theorem Represents.matrixResize (newRows newCols : ℤ) (ha : IsMatrix M a) :
    Keeps sure avx s M (.matrixResize a newRows newCols) := by
  rcases h.matrix ha with rfl | ⟨m, rest, rfl, hm, hs, hrest⟩
  · exact runs_bind (runs_bind (runs_pure (runs_pure (runs_pure
      ⟨M, .inl ⟨rfl, rfl, fun _ => rfl⟩, h⟩))))
  dsimp only [Keeps, Does]
  rw [hm]
  refine h.changes (o := .matrix m) hrest
    (runs_matrixResizeMethod hs (fun hbad => ?_) fun m' hobject hrows hcols hentries => ?_)
  · exact .inl ⟨rfl, rfl, fun hsure => if_neg fun hpos => hbad hpos.1 hpos.2 hsure⟩
  · have hpointer : (Rep.matrix m').pointer = (Rep.matrix m).pointer :=
      congrArg (Pointer.mk · 0) hobject
    have hr : m'.rows = newRows.toNat := by omega
    have hc : m'.cols = newCols.toNat := by omega
    refine .inr ⟨.matrix m', rfl, hpointer, rfl, ?_⟩
    have hpos : 0 < newRows ∧ 0 < newCols :=
      ⟨hrows ▸ Int.natCast_pos.mpr m'.rows_pos, hcols ▸ Int.natCast_pos.mpr m'.cols_pos⟩
    refine (if_pos hpos).trans (congrArg some ?_)
    refine (Value.matrix_eq hr hc fun i j => ?_).symm
    rw [Matrix.of_apply, hentries i i.2 j j.2]
    exact (dite_eq_ite ..).symm

/-- A matrix is freed. -/
theorem Represents.matrixFree (ha : IsMatrix M a) :
    Keeps sure avx s M (.matrixFree a) := by
  rcases h.matrix ha with rfl | ⟨m, rest, rfl, hm, hs, hrest⟩
  · exact runs_bind (runs_pure (runs_pure ⟨M, ⟨rfl, rfl⟩, h⟩))
  · exact Represents.frees (o := .matrix m) hrest (runs_matrixFreeMethod hs rfl)

/-- Two vectors element by element. -/
theorem Represents.vectorPointwise (op : R → R → R) (ha : IsVector M a) (hb : IsVector M b) :
    Runs sure (do return Answer.object (← Storage.vectorPointwise op avx a b)) s fun r s' =>
      ∃ M', Creates sure M (Value.combine op (M.at a) (M.at b)) r M' ∧ Represents s' M' := by
  refine h.creates ?_
  by_cases hnull : a = none ∨ b = none
  · refine h.runs_nullVector ha hb hnull (.inl ⟨rfl, rfl, fun _ => ?_⟩) _
    rcases hnull with rfl | rfl
    · exact combine_none_left op _
    · exact combine_none_right op _
  obtain ⟨ha', hb'⟩ := not_or.mp hnull
  obtain ⟨v, resta, rfl, hv, hsa, -⟩ := (h.vector ha).resolve_left ha'
  obtain ⟨w, restb, rfl, hw, hsb, -⟩ := (h.vector hb).resolve_left hb'
  rw [hv, hw]
  refine runs_vectorPointwise (hsa ▸ Multiset.le_add_right _ _) (hsb ▸ Multiset.le_add_right _ _)
    (fun hfail => .inl ⟨rfl, rfl, fun hsure => ?_⟩) fun hsize c hc hentries => .inr
    ⟨.vector c, rfl, rfl, ?_⟩
  · exact dif_neg fun hdim => hfail hdim hsure
  · refine (dif_pos hsize).trans (congrArg some ?_)
    exact (Value.vector_eq hc fun i => hentries i (hc ▸ i.2)).symm

/-- The dot product of two vectors. -/
theorem Represents.vectorDotProduct (ha : IsVector M a) (hb : IsVector M b) :
    Keeps sure avx s M (.vectorDotProduct a b) := by
  by_cases hnull : a = none ∨ b = none
  · refine runs_bind (h.runs_nullVector ha hb hnull (runs_pure ⟨M, ⟨congrArg Answer.number ?_, rfl⟩,
      h⟩) _)
    rcases hnull with rfl | rfl
    · rcases M.at b with _ | ⟨_ | _⟩ <;> rfl
    · rcases M.at a with _ | ⟨_ | _⟩ <;> rfl
  obtain ⟨ha', hb'⟩ := not_or.mp hnull
  obtain ⟨v, resta, rfl, hv, hsa, -⟩ := (h.vector ha).resolve_left ha'
  obtain ⟨w, restb, rfl, hw, hsb, -⟩ := (h.vector hb).resolve_left hb'
  dsimp only [Keeps, Does]
  rw [hv, hw]
  refine runs_bind (runs_vectorDotProductSimd (hsa ▸ Multiset.le_add_right _ _)
    (hsb ▸ Multiset.le_add_right _ _) (fun hsize => ?_) fun hsize => ?_)
  · have hdot : Value.dotProduct (some (Rep.vector v).value) (some (Rep.vector w).value) = 0 :=
      dif_neg hsize
    exact runs_pure ⟨M, ⟨congrArg Answer.number hdot.symm, rfl⟩, h⟩
  · have hdot : Value.dotProduct (some (Rep.vector v).value) (some (Rep.vector w).value) =
        ∑ i ∈ Finset.range v.size, v.entries i * w.entries i :=
      (dif_pos hsize).trans (Finset.sum_range fun i => v.entries i * w.entries i).symm
    exact runs_pure ⟨M, ⟨congrArg Answer.number hdot.symm, rfl⟩, h⟩

/-- The scalar multiple of a vector. -/
theorem Represents.vectorScale (scalar : R) (ha : IsVector M a) :
    Keeps sure avx s M (.vectorScale a scalar) := by
  refine h.creates ?_
  rcases h.vector ha with rfl | ⟨v, rest, rfl, hv, hs, -⟩
  · exact runs_bind (runs_pure (runs_pure (.inl ⟨rfl, rfl, fun _ => rfl⟩)))
  rw [hv]
  refine runs_vectorScaleSimd (hs ▸ Multiset.le_add_right _ _)
    (fun hfail => .inl ⟨rfl, rfl, fun hsure => absurd hsure hfail⟩) fun c hc hentries => .inr
    ⟨.vector c, rfl, rfl, congrArg some ?_⟩
  exact (Value.vector_eq hc fun i => hentries i (hc ▸ i.2)).symm

/-- The copy of a vector. -/
theorem Represents.vectorCopy (ha : IsVector M a) : Keeps sure avx s M (.vectorCopy a) := by
  refine h.creates ?_
  rcases h.vector ha with rfl | ⟨v, rest, rfl, hv, hs, -⟩
  · exact runs_bind (runs_pure (runs_pure (.inl ⟨rfl, rfl, fun _ => rfl⟩)))
  rw [hv]
  refine runs_vectorCopyMethod (hs ▸ Multiset.le_add_right _ _)
    (fun hfail => .inl ⟨rfl, rfl, fun hsure => absurd hsure hfail⟩) fun c hc hentries => .inr
    ⟨.vector c, rfl, rfl, congrArg some ?_⟩
  exact (Value.vector_eq hc fun i => hentries i (hc ▸ i.2)).symm

/-- An element of a vector. -/
theorem Represents.vectorGet (index : ℤ) (ha : IsVector M a) :
    Keeps sure avx s M (.vectorGet a index) := by
  rcases h.vector ha with rfl | ⟨v, rest, rfl, hv, hs, -⟩
  · exact runs_bind (runs_bind (runs_pure (runs_pure (runs_pure ⟨M, ⟨rfl, rfl⟩, h⟩))))
  dsimp only [Keeps, Does]
  rw [hv]
  refine runs_bind (runs_vectorGetMethod (hs ▸ Multiset.le_add_right _ _)
    (fun i hi hindex => ?_) fun hout => ?_)
  · subst hindex
    have hentry : Value.entry i 0 (some (Rep.vector v).value) = v.entries i :=
      dif_pos ⟨Int.natCast_nonneg i, hi⟩
    exact runs_pure ⟨M, ⟨congrArg Answer.number hentry.symm, rfl⟩, h⟩
  · have hentry : Value.entry index 0 (some (Rep.vector v).value) = 0 := by
      refine dif_neg fun hin => hout ?_
      exact ⟨index.toNat, hin.2, by omega⟩
    exact runs_pure ⟨M, ⟨congrArg Answer.number hentry.symm, rfl⟩, h⟩

/-- An element of a vector is assigned. -/
theorem Represents.vectorSet (index : ℤ) (value : R) (ha : IsVector M a) :
    Keeps sure avx s M (.vectorSet a index value) := by
  rcases h.vector ha with rfl | ⟨v, rest, rfl, hv, hs, hrest⟩
  · exact runs_bind (runs_bind (runs_pure (runs_pure (runs_pure
      ⟨M, .inl ⟨rfl, rfl, fun _ => rfl⟩, h⟩))))
  dsimp only [Keeps, Does]
  rw [hv]
  refine h.changes (o := .vector v) hrest
    (runs_vectorSetMethod hs (fun i hi hindex => ?_) fun hout => ?_)
  · subst hindex
    refine .inr ⟨.vector (v.put (update v.entries i value)), rfl, rfl, rfl, ?_⟩
    refine (if_pos ⟨Int.natCast_nonneg i, hi⟩).trans ?_
    refine congrArg some (congrArg (Value.vector v.size) ?_)
    funext k
    refine (if_congr Int.natCast_inj rfl rfl).trans ?_
    exact (update_apply v.entries i value k).symm
  · refine .inl ⟨rfl, rfl, fun _ => if_neg fun hin => hout ?_⟩
    exact ⟨index.toNat, hin.2, by omega⟩

/-- The size of a vector. -/
theorem Represents.vectorSize (ha : IsVector M a) : Keeps sure avx s M (.vectorSize a) := by
  rcases h.vector ha with rfl | ⟨v, rest, rfl, hv, hs, -⟩
  · exact runs_bind (runs_bind (runs_pure (runs_pure (runs_pure ⟨M, ⟨rfl, rfl⟩, h⟩))))
  dsimp only [Keeps, Does]
  rw [hv]
  refine runs_bind (runs_bind (VectorRep.runs_vectorImpl (hs ▸ Multiset.le_add_right _ _) ?_))
  exact runs_pure (runs_pure ⟨M, ⟨rfl, rfl⟩, h⟩)

/-- A vector is resized. -/
theorem Represents.vectorResize (newSize : ℤ) (ha : IsVector M a) :
    Keeps sure avx s M (.vectorResize a newSize) := by
  rcases h.vector ha with rfl | ⟨v, rest, rfl, hv, hs, hrest⟩
  · exact runs_bind (runs_bind (runs_pure (runs_pure (runs_pure
      ⟨M, .inl ⟨rfl, rfl, fun _ => rfl⟩, h⟩))))
  dsimp only [Keeps, Does]
  rw [hv]
  refine h.changes (o := .vector v) hrest
    (runs_vectorResizeMethod hs (fun hbad => ?_) fun v' hobject hsize hentries => ?_)
  · exact .inl ⟨rfl, rfl, fun hsure => if_neg fun hpos => hbad hpos hsure⟩
  · have hpointer : (Rep.vector v').pointer = (Rep.vector v).pointer :=
      congrArg (Pointer.mk · 0) hobject
    have hn : v'.size = newSize.toNat := by omega
    have hpos : 0 < newSize := hsize ▸ Int.natCast_pos.mpr v'.size_pos
    refine .inr ⟨.vector v', rfl, hpointer, rfl, ?_⟩
    refine (if_pos hpos).trans (congrArg some ?_)
    refine (Value.vector_eq hn fun i => ?_).symm
    rw [hentries i i.2]
    exact (dite_eq_ite ..).symm

/-- A vector is freed. -/
theorem Represents.vectorFree (ha : IsVector M a) : Keeps sure avx s M (.vectorFree a) := by
  rcases h.vector ha with rfl | ⟨v, rest, rfl, hv, hs, hrest⟩
  · exact runs_bind (runs_pure (runs_pure ⟨M, ⟨rfl, rfl⟩, h⟩))
  · exact Represents.frees (o := .vector v) hrest (runs_vectorFreeMethod hs rfl)

/-- A matrix is created. -/
theorem Represents.createMatrix (rows cols : ℤ) :
    Keeps sure avx s M (.createMatrix rows cols) := by
  refine h.creates (runs_createMatrix (fun hfail => ?_) fun m hrows hcols hzero => ?_)
  · exact .inl ⟨rfl, rfl, fun hsure => if_neg fun hpos => hfail hpos.1 hpos.2 hsure⟩
  · have hpos : 0 < rows ∧ 0 < cols :=
      ⟨hrows ▸ Int.natCast_pos.mpr m.rows_pos, hcols ▸ Int.natCast_pos.mpr m.cols_pos⟩
    refine .inr ⟨.matrix m, rfl, rfl, (if_pos hpos).trans (congrArg some ?_)⟩
    refine (Value.matrix_eq (show m.rows = rows.toNat by omega)
      (show m.cols = cols.toNat by omega) fun i j => ?_).symm
    rw [Matrix.of_apply, hzero]
    rfl

/-- A vector is created. -/
theorem Represents.createVector (size : ℤ) : Keeps sure avx s M (.createVector size) := by
  refine h.creates (runs_createVector (fun hfail => ?_) fun v hsize hzero => ?_)
  · exact .inl ⟨rfl, rfl, fun hsure => if_neg fun hpos => hfail hpos hsure⟩
  · have hpos : 0 < size := hsize ▸ Int.natCast_pos.mpr v.size_pos
    refine .inr ⟨.vector v, rfl, rfl, (if_pos hpos).trans (congrArg some ?_)⟩
    refine (Value.vector_eq (show v.size = size.toNat by omega) fun i => ?_).symm
    rw [hzero]
    rfl

/-- **Every call does what it means.** -/
theorem Represents.call {c : Call R} (hc : Allowed M c) : Keeps sure avx s M c := by
  cases c with
  | createMatrix rows cols => exact h.createMatrix rows cols
  | matrixGet self row col => exact h.matrixGet row col hc
  | matrixSet self row col value => exact h.matrixSet row col value hc
  | matrixRows self => exact h.matrixRows hc
  | matrixCols self => exact h.matrixCols hc
  | matrixAdd self other => exact h.matrixPointwise (· + ·) hc.1 hc.2
  | matrixSubtract self other => exact h.matrixPointwise (· - ·) hc.1 hc.2
  | matrixMultiply self other => exact h.matrixMultiply hc.1 hc.2
  | matrixTranspose self => exact h.matrixTranspose hc
  | matrixResize self newRows newCols => exact h.matrixResize newRows newCols hc
  | matrixCopy self => exact h.matrixCopy hc
  | matrixFree self => exact h.matrixFree hc
  | createVector size => exact h.createVector size
  | vectorGet self index => exact h.vectorGet index hc
  | vectorSet self index value => exact h.vectorSet index value hc
  | vectorSize self => exact h.vectorSize hc
  | vectorResize self newSize => exact h.vectorResize newSize hc
  | vectorCopy self => exact h.vectorCopy hc
  | vectorAdd a b => exact h.vectorPointwise (· + ·) hc.1 hc.2
  | vectorSubtract a b => exact h.vectorPointwise (· - ·) hc.1 hc.2
  | vectorDotProduct a b => exact h.vectorDotProduct hc.1 hc.2
  | vectorScale v scalar => exact h.vectorScale scalar hc
  | vectorFree self => exact h.vectorFree hc

end

/-! ## The blocks of the heap -/

/-- Where the matrices are. -/
def Objects.matrices (M : Objects R) : Set Pointer := {p | ∃ r c A, M p = some (.matrix r c A)}

/-- Where the vectors are. -/
def Objects.vectors (M : Objects R) : Set Pointer := {p | ∃ n x, M p = some (.vector n x)}

theorem matrices_update_matrix (M : Objects R) (p : Pointer) {r c : ℕ}
    (A : Matrix (Fin r) (Fin c) R) :
    Objects.matrices (update M p (some (.matrix r c A))) = insert p M.matrices := by
  ext q
  by_cases hq : q = p
  · subst hq
    exact iff_of_true ⟨r, c, A, update_self ..⟩ (Set.mem_insert q _)
  · simp [Objects.matrices, hq]

theorem vectors_update_matrix {M : Objects R} {p : Pointer} {r c : ℕ}
    (A : Matrix (Fin r) (Fin c) R) (hp : M p = none) :
    Objects.vectors (update M p (some (.matrix r c A))) = M.vectors := by
  ext q
  by_cases hq : q = p
  · subst hq
    simp [Objects.vectors, hp]
  · simp [Objects.vectors, hq]

theorem vectors_update_vector (M : Objects R) (p : Pointer) {n : ℕ} (x : Fin n → R) :
    Objects.vectors (update M p (some (.vector n x))) = insert p M.vectors := by
  ext q
  by_cases hq : q = p
  · subst hq
    exact iff_of_true ⟨n, x, update_self ..⟩ (Set.mem_insert q _)
  · simp [Objects.vectors, hq]

theorem matrices_update_vector {M : Objects R} {p : Pointer} {n : ℕ} (x : Fin n → R)
    (hp : M p = none) :
    Objects.matrices (update M p (some (.vector n x))) = M.matrices := by
  ext q
  by_cases hq : q = p
  · subst hq
    simp [Objects.matrices, hp]
  · simp [Objects.matrices, hq]

/-- **Four blocks for each matrix and three for each vector.** By counting, so that a block that
belongs to no object cannot hide. -/
theorem Represents.card (h : Represents s M) :
    M.matrices.Finite ∧ M.vectors.Finite ∧
      s.card = 4 * M.matrices.ncard + 3 * M.vectors.ncard := by
  induction h with
  | nil =>
    have hmatrices : Objects.matrices (fun _ => none : Objects R) = ∅ := by
      ext p
      simp [Objects.matrices]
    have hvectors : Objects.vectors (fun _ => none : Objects R) = ∅ := by
      ext p
      simp [Objects.vectors]
    rw [hmatrices, hvectors]
    simp
  | @cons o s M hs hnone ih =>
    obtain ⟨hmatrices, hvectors, hcard⟩ := ih
    cases o with
    | matrix m =>
      have hp : (Rep.matrix m).pointer ∉ M.matrices := by
        rintro ⟨r, c, A, hA⟩
        rw [hnone] at hA
        cases hA
      rw [Rep.value, matrices_update_matrix, vectors_update_matrix _ hnone,
        Set.ncard_insert_of_notMem hp hmatrices]
      refine ⟨hmatrices.insert _, hvectors, ?_⟩
      rw [Multiset.card_add, hcard]
      show 4 + _ = _
      omega
    | vector v =>
      have hp : (Rep.vector v).pointer ∉ M.vectors := by
        rintro ⟨n, x, hx⟩
        rw [hnone] at hx
        cases hx
      rw [Rep.value, vectors_update_vector, matrices_update_vector _ hnone,
        Set.ncard_insert_of_notMem hp hvectors]
      refine ⟨hmatrices, hvectors.insert _, ?_⟩
      rw [Multiset.card_add, hcard]
      show 3 + _ = _
      omega

/-! ## Sessions

The next state of a session is any that the specification and the program both allow, so that the
theorem about one call applies to it. -/

theorem Creates.unique {value : Option (Value R)} {r : Answer R} {M₁ M₂ : Objects R}
    (h₁ : Creates sure M value r M₁) (h₂ : Creates sure M value r M₂) : M₁ = M₂ := by
  rcases h₁ with ⟨rfl, rfl, -⟩ | ⟨p, v, rfl, -, rfl, rfl⟩
  · rcases h₂ with ⟨-, rfl, -⟩ | ⟨q, w, -, -, hr, -⟩
    · rfl
    · cases hr
  · rcases h₂ with ⟨hr, -⟩ | ⟨q, w, hw, -, hr, rfl⟩
    · cases hr
    · cases hw
      cases hr
      rfl

theorem Changes.unique {self : Option Pointer} {value : Option (Value R)} {r : Answer R}
    {M₁ M₂ : Objects R} (h₁ : Changes sure M self value r M₁)
    (h₂ : Changes sure M self value r M₂) : M₁ = M₂ := by
  rcases h₁ with ⟨rfl, rfl, -⟩ | ⟨p, v, rfl, rfl, rfl, rfl⟩
  · rcases h₂ with ⟨-, rfl, -⟩ | ⟨q, w, -, -, hr, -⟩
    · rfl
    · cases hr
  · rcases h₂ with ⟨hr, -⟩ | ⟨q, w, hq, hw, -, rfl⟩
    · cases hr
    · cases hq
      cases hw
      rfl

variable [Ring R]

/-- The answer says what became of the objects. -/
theorem Does.unique {r : Answer R} {M₁ M₂ : Objects R} {c : Call R} (h₁ : Does sure M r M₁ c)
    (h₂ : Does sure M r M₂ c) : M₁ = M₂ := by
  cases c with
  | createMatrix | createVector | matrixAdd | matrixSubtract | matrixMultiply | matrixTranspose
  | matrixCopy | vectorCopy | vectorAdd | vectorSubtract | vectorScale =>
    exact Creates.unique h₁ h₂
  | matrixSet | matrixResize | vectorSet | vectorResize => exact Changes.unique h₁ h₂
  | matrixFree | vectorFree | matrixGet | matrixRows | matrixCols | vectorGet | vectorSize
  | vectorDotProduct => exact h₁.2.trans h₂.2.symm

/-- What a session leads to: any calls with live arguments, from the heap without blocks. A call
does what it means, as far as its own allocations let it. -/
inductive Session (avx : Bool) (outcome : ℕ → Bool) : Heap (Cell R) → Objects R → Prop
  | start : Session avx outcome (.empty outcome) fun _ => none
  | call {h M c r h' M'} : Session avx outcome h M → Allowed M c →
    c.run avx h = some (r, h') → Does (h.Granted h') M r M' c →
    Session avx outcome h' M'

/-- The heap of a session represents its objects. -/
theorem Session.represents {avx : Bool} {outcome : ℕ → Bool} {h : Heap (Cell R)}
    (hsession : Session avx outcome h M) :
    h.outcome = outcome ∧ ∃ s, h.Holds s ∧ Represents s M := by
  induction hsession with
  | start => exact ⟨rfl, 0, Heap.holds_empty outcome, .nil⟩
  | call _ hallowed hrun hdoes ih =>
    obtain ⟨houtcome, s, hs, hrep⟩ := ih
    obtain ⟨r', h'', s', hrun', hs', M'', hdoes', hrep'⟩ :=
      Runs.granted (fun _ => hrep.call hallowed) hs
    obtain ⟨rfl, rfl⟩ := Prod.mk.inj (Option.some.inj (hrun'.eq.symm.trans hrun))
    rw [hdoes.unique hdoes']
    exact ⟨hrun'.outcome_eq.trans houtcome, s', hs', hrep'⟩

/-- Where no attempt fails, none of a call does. -/
theorem Session.granted {avx : Bool} {h : Heap (Cell R)}
    (hsession : Session avx (fun _ => true) h M) (h' : Heap (Cell R)) : h.Granted h' := by
  intro n _ _
  rw [hsession.represents.1]

/-- **Sessions with matrices and vectors.** However many objects are live, whatever allocations fail
and with AVX or without: a call whose arguments are live touches only cells of live blocks, and what
it answers and does to the objects is what it means for matrices and vectors in the mathematical
sense. An answer that there is no memory is given only when an attempt of this very call fails. The
live blocks are those of the live objects, four for a matrix and three for a vector. -/
theorem session_correct {avx : Bool} {outcome : ℕ → Bool} {h : Heap (Cell R)}
    (hsession : Session avx outcome h M) :
    (∀ c, Allowed M c → ∃ r h' M', c.run avx h = some (r, h') ∧
      Does (h.Granted h') M r M' c) ∧
    {b | h.block b ≠ none}.ncard = 4 * M.matrices.ncard + 3 * M.vectors.ncard := by
  obtain ⟨-, s, hs, hrep⟩ := hsession.represents
  constructor
  · intro c hc
    obtain ⟨r, h', s', hrun, -, M', hdoes, -⟩ := Runs.granted (fun _ => hrep.call hc) hs
    exact ⟨r, h', M', hrun.eq, hdoes⟩
  · have hblocks : {b | h.block b ≠ none} = ((s.map Prod.fst).toFinset : Set ℕ) := by
      ext b
      rw [Finset.mem_coe, Multiset.mem_toFinset, Multiset.mem_map]
      constructor
      · intro hb
        obtain ⟨cells, hcells⟩ := Option.ne_none_iff_exists'.mp hb
        exact ⟨(b, cells), (hs.2 b cells).mp hcells, rfl⟩
      · rintro ⟨⟨b, cells⟩, hmem, rfl⟩
        rw [Set.mem_ofPred_eq, (hs.2 b cells).mpr hmem]
        exact Option.some_ne_none cells
    rw [hblocks, Set.ncard_coe_finset, Multiset.toFinset_card_of_nodup hs.1, Multiset.card_map]
    exact hrep.card.2.2

/-- With AVX and memory enough, a vector of three integers is created, an element assigned, and the
vector scaled: there are two vectors in six blocks, and their dot product is 80. -/
theorem session_correct_scaled :
    ∃ (h : Heap (Cell ℤ)) (M : Objects ℤ) (p q : Pointer), Session true (fun _ => true) h M ∧
      M p = some (.vector 3 ![0, 4, 0]) ∧ M q = some (.vector 3 ![0, 20, 0]) ∧
      {b | h.block b ≠ none}.ncard = 4 * M.matrices.ncard + 3 * M.vectors.ncard ∧
      ∃ h', (Call.vectorDotProduct (some p) (some q)).run true h = some (.number 80, h') := by
  have hstart : Session true (fun _ => true) (.empty fun _ => true) (fun _ => none : Objects ℤ) :=
    .start
  -- `create_vector`
  obtain ⟨r₁, h₁, M₁, hrun₁, hdoes₁⟩ := (session_correct hstart).1 (.createVector 3) trivial
  have hfirst := hstart.call (c := .createVector 3) trivial hrun₁ hdoes₁
  obtain ⟨p, rfl⟩ : ∃ p, M₁ = update (fun _ => none) p (some (.vector 3 0)) := by
    rcases hdoes₁ with ⟨-, -, hnone⟩ | ⟨p, v, hv, -, -, rfl⟩
    · cases hnone (hstart.granted h₁)
    · cases hv
      exact ⟨p, rfl⟩
  -- the element 1 becomes 4
  have hp : (update (fun _ => none) p (some (.vector 3 0)) : Objects ℤ) p = some (.vector 3 0) :=
    update_self ..
  obtain ⟨r₂, h₂, M₂, hrun₂, hdoes₂⟩ :=
    (session_correct hfirst).1 (.vectorSet (some p) 1 4) (.inr ⟨3, 0, hp⟩)
  have hsecond := hfirst.call (c := .vectorSet (some p) 1 4) (.inr ⟨3, 0, hp⟩) hrun₂ hdoes₂
  obtain hp₂ : M₂ p = some (.vector 3 ![0, 4, 0]) := by
    rcases hdoes₂ with ⟨-, -, hnone⟩ | ⟨p', v, hp', hv, -, rfl⟩
    · have hvalue := hnone trivial
      rw [Objects.at, Option.bind_some, hp] at hvalue
      cases hvalue
    · cases hp'
      rw [Objects.at, Option.bind_some, hp] at hv
      rw [update_self, ← hv]
      exact congrArg some (Value.vector_eq rfl (by decide))
  -- the vector is scaled by 5
  have hscaled : Value.scale 5 (M₂.at (some p)) = some (.vector 3 ![0, 20, 0]) := by
    rw [Objects.at, Option.bind_some, hp₂]
    exact congrArg some (Value.vector_eq rfl (by decide))
  obtain ⟨r₃, h₃, M₃, hrun₃, hdoes₃⟩ :=
    (session_correct hsecond).1 (.vectorScale (some p) 5) (.inr ⟨3, _, hp₂⟩)
  have hthird := hsecond.call (c := .vectorScale (some p) 5) (.inr ⟨3, _, hp₂⟩) hrun₃ hdoes₃
  rcases hdoes₃ with ⟨-, -, hnone⟩ | ⟨q, v, hv, hq, -, rfl⟩
  · rw [hscaled] at hnone
    cases hnone (hsecond.granted h₃)
  have hpq : p ≠ q := by
    rintro rfl
    rw [hp₂] at hq
    cases hq
  have hp₃ : update M₂ q (some v) p = some (.vector 3 ![0, 4, 0]) := by
    rw [update_of_ne hpq, hp₂]
  have hq₃ : update M₂ q (some v) q = some (.vector 3 ![0, 20, 0]) := by
    rw [update_self, ← hv, hscaled]
  obtain ⟨hcalls, hblocks⟩ := session_correct hthird
  obtain ⟨r, h', M', hdot, hanswer, -⟩ := hcalls (.vectorDotProduct (some p) (some q))
    ⟨.inr ⟨3, _, hp₃⟩, .inr ⟨3, _, hq₃⟩⟩
  refine ⟨h₃, _, p, q, hthird, hp₃, hq₃, hblocks, h', ?_⟩
  rw [hdot, hanswer, Objects.at, Objects.at, Option.bind_some, Option.bind_some, hp₃, hq₃]
  exact congrArg (fun x => some (Answer.number x, h')) (by decide)

end Storage

end Matrix

end OvaLib
