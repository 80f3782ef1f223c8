import Mathlib.Data.Matrix.Mul
import OvaLib.Matrix.Storage

/-!
# Sessions with matrices and vectors

What a caller of `matrix.c` sees: objects behind pointers, whose values are matrices and vectors in
the mathematical sense. Any number of them may be live, and an argument may be given twice.

## The specification

Nothing in this module is taken from the bodies of the functions. A value is a matrix or a vector
with its dimensions, and the meaning of a call is an operation on values that Mathlib has: a sum, a
product, a transpose, a scalar multiple, a dot product. The results of a call are a new object, a
change of an object, the end of one, or a number; three relations describe the first three for all
calls at once. A call that has no value, as the sum of two matrices of different shapes, creates
nothing.

`Does` has a proposition as its first argument, that no allocation of the call at hand fails. Only
where it is false may a call that has a value answer that there is none.

## What a caller owes

The arguments are live objects of the right kind, or `NULL`, which every method checks. A pointer to
an object that was freed is not allowed, and neither is a vector in place of a matrix. That is
`Allowed`; dimensions and indices are free.

## Main definitions

* `Value`, `Objects` — what the objects stand for
* `Call.run` — the call of a function
* `Does` — what a call may answer and do to the objects
-/

namespace OvaLib

namespace Matrix

namespace Storage

open Foundation Function

variable {R : Type}

/-! ## Values

A matrix with its dimensions is one value, so that `resize` can change them. -/

/-- What an object stands for. -/
inductive Value (R : Type)
  | matrix (rows cols : ℕ) (A : Matrix (Fin rows) (Fin cols) R)
  | vector (size : ℕ) (x : Fin size → R)

/-- The objects that are live, by their addresses. -/
abbrev Objects (R : Type) := Pointer → Option (Value R)

/-- A call with its arguments. -/
inductive Call (R : Type)
  | createMatrix (rows cols : ℤ)
  | matrixGet (self : Option Pointer) (row col : ℤ)
  | matrixSet (self : Option Pointer) (row col : ℤ) (value : R)
  | matrixRows (self : Option Pointer)
  | matrixCols (self : Option Pointer)
  | matrixAdd (self other : Option Pointer)
  | matrixSubtract (self other : Option Pointer)
  | matrixMultiply (self other : Option Pointer)
  | matrixTranspose (self : Option Pointer)
  | matrixResize (self : Option Pointer) (newRows newCols : ℤ)
  | matrixCopy (self : Option Pointer)
  | matrixFree (self : Option Pointer)
  | createVector (size : ℤ)
  | vectorGet (self : Option Pointer) (index : ℤ)
  | vectorSet (self : Option Pointer) (index : ℤ) (value : R)
  | vectorSize (self : Option Pointer)
  | vectorResize (self : Option Pointer) (newSize : ℤ)
  | vectorCopy (self : Option Pointer)
  | vectorAdd (a b : Option Pointer)
  | vectorSubtract (a b : Option Pointer)
  | vectorDotProduct (a b : Option Pointer)
  | vectorScale (v : Option Pointer) (scalar : R)
  | vectorFree (self : Option Pointer)

/-- What a call returns. -/
inductive Answer (R : Type)
  | object (p : Option Pointer)
  | number (x : R)
  | code (n : ℤ)
  | nothing

variable [Ring R]

/-- The function that is called. -/
def Call.run (avx : Bool) : Call R → Effect R (Answer R)
  | .createMatrix rows cols => return .object (← Storage.createMatrix rows cols)
  | .matrixGet self row col => return .number (← matrixGetMethod self row col)
  | .matrixSet self row col value => return .code (← matrixSetMethod self row col value)
  | .matrixRows self => return .code (← matrixRowsMethod self)
  | .matrixCols self => return .code (← matrixColsMethod self)
  | .matrixAdd self other => return .object (← matrixAddMethod avx self other)
  | .matrixSubtract self other => return .object (← matrixSubtractMethod avx self other)
  | .matrixMultiply self other => return .object (← Storage.matrixMultiplyMethod self other)
  | .matrixTranspose self => return .object (← matrixTransposeMethod self)
  | .matrixResize self newRows newCols => return .code (← matrixResizeMethod self newRows newCols)
  | .matrixCopy self => return .object (← matrixCopyMethod self)
  | .matrixFree self => do
    matrixFreeMethod self
    return .nothing
  | .createVector size => return .object (← Storage.createVector size)
  | .vectorGet self index => return .number (← vectorGetMethod self index)
  | .vectorSet self index value => return .code (← vectorSetMethod self index value)
  | .vectorSize self => return .code (← vectorSizeMethod self)
  | .vectorResize self newSize => return .code (← vectorResizeMethod self newSize)
  | .vectorCopy self => return .object (← vectorCopyMethod self)
  | .vectorAdd a b => return .object (← vectorAddSimd avx a b)
  | .vectorSubtract a b => return .object (← vectorSubtractSimd avx a b)
  | .vectorDotProduct a b => return .number (← vectorDotProductSimd avx a b)
  | .vectorScale v scalar => return .object (← vectorScaleSimd avx v scalar)
  | .vectorFree self => do
    vectorFreeMethod self
    return .nothing

/-! ## What the calls mean

The answers -1 and 0, and the entry 0 where there is none, are those that `matrix.h` gives. -/

/-- Entry by entry, for two values of one shape. -/
def Value.combine (op : R → R → R) : Option (Value R) → Option (Value R) → Option (Value R)
  | some (.matrix r c A), some (.matrix r' c' B) =>
    if h : r = r' ∧ c = c' then
      some (.matrix r c (.of fun i j => op (A i j) (B (Fin.cast h.1 i) (Fin.cast h.2 j))))
    else none
  | some (.vector n x), some (.vector n' y) =>
    if h : n = n' then some (.vector n fun i => op (x i) (y (Fin.cast h i))) else none
  | _, _ => none

/-- The product of two matrices. -/
def Value.product : Option (Value R) → Option (Value R) → Option (Value R)
  | some (.matrix r n A), some (.matrix n' c B) =>
    if h : n = n' then some (.matrix r c (A * B.submatrix (Fin.cast h) id)) else none
  | _, _ => none

/-- The transpose. -/
def Value.transpose : Option (Value R) → Option (Value R)
  | some (.matrix r c A) => some (.matrix c r A.transpose)
  | _ => none

/-- The scalar multiple. -/
def Value.scale (scalar : R) : Option (Value R) → Option (Value R)
  | some (.vector n x) => some (.vector n fun i => x i * scalar)
  | _ => none

/-- The dot product. -/
def Value.dotProduct : Option (Value R) → Option (Value R) → R
  | some (.vector n x), some (.vector n' y) =>
    if h : n = n' then ∑ i, x i * y (Fin.cast h i) else 0
  | _, _ => 0

/-- An entry; 0 where there is none. -/
def Value.entry (row col : ℤ) : Option (Value R) → R
  | some (.matrix r c A) =>
    if h : (0 ≤ row ∧ row.toNat < r) ∧ (0 ≤ col ∧ col.toNat < c) then
      A ⟨row.toNat, h.1.2⟩ ⟨col.toNat, h.2.2⟩
    else 0
  | some (.vector n x) => if h : 0 ≤ row ∧ row.toNat < n then x ⟨row.toNat, h.2⟩ else 0
  | none => 0

/-- The value with an entry assigned, if there is such an entry. -/
def Value.assign (row col : ℤ) (value : R) : Option (Value R) → Option (Value R)
  | some (.matrix r c A) =>
    if (0 ≤ row ∧ row.toNat < r) ∧ (0 ≤ col ∧ col.toNat < c) then
      some (.matrix r c (.of fun i j =>
        if (i : ℤ) = row ∧ (j : ℤ) = col then value else A i j))
    else none
  | some (.vector n x) =>
    if 0 ≤ row ∧ row.toNat < n then
      some (.vector n fun i => if (i : ℤ) = row then value else x i)
    else none
  | none => none

/-- The number of rows, or of elements. -/
def Value.rows : Option (Value R) → ℤ
  | some (.matrix r _ _) => r
  | some (.vector n _) => n
  | none => 0

/-- The number of columns. -/
def Value.cols : Option (Value R) → ℤ
  | some (.matrix _ c _) => c
  | _ => 0

/-- The value in another size, with zeros where there was nothing. -/
def Value.resize (newRows newCols : ℤ) : Option (Value R) → Option (Value R)
  | some (.matrix r c A) =>
    if 0 < newRows ∧ 0 < newCols then
      some (.matrix newRows.toNat newCols.toNat (.of fun i j =>
        if h : i < r ∧ j < c then A ⟨i, h.1⟩ ⟨j, h.2⟩ else 0))
    else none
  | some (.vector n x) =>
    if 0 < newRows then
      some (.vector newRows.toNat fun i => if h : i < n then x ⟨i, h⟩ else 0)
    else none
  | none => none

/-- The value of the object behind a pointer. -/
def Objects.at (M : Objects R) (p : Option Pointer) : Option (Value R) := p.bind M

/-- A new object has the value, if there is one to have; or there is no new object. -/
def Creates (sure : Prop) (M : Objects R) (value : Option (Value R)) (r : Answer R)
    (M' : Objects R) : Prop :=
  (r = .object none ∧ M' = M ∧ (sure → value = none)) ∨
    ∃ p v, value = some v ∧ M p = none ∧ r = .object (some p) ∧ M' = update M p (some v)

/-- An object gets the value, if there is one to get; or it stays as it was. -/
def Changes (sure : Prop) (M : Objects R) (self : Option Pointer) (value : Option (Value R))
    (r : Answer R) (M' : Objects R) : Prop :=
  (r = .code (-1) ∧ M' = M ∧ (sure → value = none)) ∨
    ∃ p v, self = some p ∧ value = some v ∧ r = .code 0 ∧ M' = update M p (some v)

/-- An object is gone. -/
def Frees (M : Objects R) (self : Option Pointer) (r : Answer R) (M' : Objects R) : Prop :=
  r = .nothing ∧ M' = self.elim M fun p => update M p none

/-- What a call may answer and do to the objects; `sure` says that none of its allocations fails. -/
def Does (sure : Prop) (M : Objects R) (r : Answer R) (M' : Objects R) : Call R → Prop
  | .createMatrix rows cols =>
    Creates sure M
      (if 0 < rows ∧ 0 < cols then some (.matrix rows.toNat cols.toNat 0) else none) r M'
  | .matrixGet self row col => r = .number (Value.entry row col (M.at self)) ∧ M' = M
  | .matrixSet self row col value =>
    Changes True M self (Value.assign row col value (M.at self)) r M'
  | .matrixRows self => r = .code (Value.rows (M.at self)) ∧ M' = M
  | .matrixCols self => r = .code (Value.cols (M.at self)) ∧ M' = M
  | .matrixAdd self other => Creates sure M (Value.combine (· + ·) (M.at self) (M.at other)) r M'
  | .matrixSubtract self other =>
    Creates sure M (Value.combine (· - ·) (M.at self) (M.at other)) r M'
  | .matrixMultiply self other => Creates sure M (Value.product (M.at self) (M.at other)) r M'
  | .matrixTranspose self => Creates sure M (Value.transpose (M.at self)) r M'
  | .matrixResize self newRows newCols =>
    Changes sure M self (Value.resize newRows newCols (M.at self)) r M'
  | .matrixCopy self => Creates sure M (M.at self) r M'
  | .matrixFree self => Frees M self r M'
  | .createVector size =>
    Creates sure M (if 0 < size then some (.vector size.toNat 0) else none) r M'
  | .vectorGet self index => r = .number (Value.entry index 0 (M.at self)) ∧ M' = M
  | .vectorSet self index value => Changes True M self (Value.assign index 0 value (M.at self)) r M'
  | .vectorSize self => r = .code (Value.rows (M.at self)) ∧ M' = M
  | .vectorResize self newSize => Changes sure M self (Value.resize newSize 0 (M.at self)) r M'
  | .vectorCopy self => Creates sure M (M.at self) r M'
  | .vectorAdd a b => Creates sure M (Value.combine (· + ·) (M.at a) (M.at b)) r M'
  | .vectorSubtract a b => Creates sure M (Value.combine (· - ·) (M.at a) (M.at b)) r M'
  | .vectorDotProduct a b => r = .number (Value.dotProduct (M.at a) (M.at b)) ∧ M' = M
  | .vectorScale v scalar => Creates sure M (Value.scale scalar (M.at v)) r M'
  | .vectorFree self => Frees M self r M'

/-- `NULL`, or a live matrix. -/
def IsMatrix (M : Objects R) (p : Option Pointer) : Prop :=
  p = none ∨ ∃ r c A, M.at p = some (.matrix r c A)

/-- `NULL`, or a live vector. -/
def IsVector (M : Objects R) (p : Option Pointer) : Prop :=
  p = none ∨ ∃ n x, M.at p = some (.vector n x)

/-- The arguments of a call are what they must be. -/
def Allowed (M : Objects R) : Call R → Prop
  | .createMatrix _ _ => True
  | .createVector _ => True
  | .matrixGet self _ _ => IsMatrix M self
  | .matrixSet self _ _ _ => IsMatrix M self
  | .matrixRows self => IsMatrix M self
  | .matrixCols self => IsMatrix M self
  | .matrixAdd self other => IsMatrix M self ∧ IsMatrix M other
  | .matrixSubtract self other => IsMatrix M self ∧ IsMatrix M other
  | .matrixMultiply self other => IsMatrix M self ∧ IsMatrix M other
  | .matrixTranspose self => IsMatrix M self
  | .matrixResize self _ _ => IsMatrix M self
  | .matrixCopy self => IsMatrix M self
  | .matrixFree self => IsMatrix M self
  | .vectorGet self _ => IsVector M self
  | .vectorSet self _ _ => IsVector M self
  | .vectorSize self => IsVector M self
  | .vectorResize self _ => IsVector M self
  | .vectorCopy self => IsVector M self
  | .vectorAdd a b => IsVector M a ∧ IsVector M b
  | .vectorSubtract a b => IsVector M a ∧ IsVector M b
  | .vectorDotProduct a b => IsVector M a ∧ IsVector M b
  | .vectorScale v _ => IsVector M v
  | .vectorFree self => IsVector M self

end Storage

end Matrix

end OvaLib
