import OvaLib.Foundation.BlockHeap
import OvaLib.Matrix.Matrix

/-!
# Matrices and vectors in memory

The objects of `matrix.c` as they lie on the heap: a public struct that points to its `impl`, the
`impl` with the dimensions and a pointer to the data, and for a matrix a table of row pointers into
one buffer. The function pointers of the public struct are left out, and so is what is printed.

## What memory is

A block is a list of cells, and a pointer is a block with an offset. A cell holds a number, an
integer or a pointer, or nothing that was written. Reading a cell that is not there, or one of
another kind, has no result, and neither has writing outside of a block, or freeing one twice. So a
function that has a result has used memory properly, and no separate statement has to say which
cells it touches.

Sizes are counted in cells and not in bytes, and each structure is a block of as many cells as it
has fields that are used. An allocation may fail, as the allocator of the heap says.

## AVX

The element-wise functions and the dot product are compiled with or without AVX; `avx` says which.
With it, four elements are loaded, combined and stored at a time, and the last ones are done one by
one. The dot product keeps four sums and adds them up at the end, which is the same number in any
ring and need not be in floating point.
-/

namespace OvaLib

namespace Matrix

namespace Storage

open Foundation

/-! ## Cells and pointers

The operations of C on memory, for cells of these kinds. -/

/-- What a pointer that is not `NULL` points to. -/
structure Pointer where
  block : ℕ
  offset : ℕ
  deriving DecidableEq

/-- What a cell of memory holds; `raw` is what nothing was written to. -/
inductive Cell (R : Type)
  | raw
  | number (v : R)
  | int (n : ℤ)
  | pointer (p : Option Pointer)

variable {R : Type}

/-- A program on the memory of the library. -/
abbrev Effect (R ρ : Type) := Prog (Cell R) ρ

/-- A run that has no result. -/
def undefined {ρ : Type} : Effect R ρ := fun _ => none

/-- The beginning of a block. -/
def start (b : ℕ) : Option Pointer := some ⟨b, 0⟩

/-- `p[i]` -/
def cellAt (p : Option Pointer) (i : ℕ) : Effect R (Cell R) :=
  match p with
  | none => undefined
  | some p => readCell p.block (p.offset + i)

/-- `p[i] = v` -/
def setCell (p : Option Pointer) (i : ℕ) (v : Cell R) : Effect R Unit :=
  match p with
  | none => undefined
  | some p => writeCell p.block (p.offset + i) v

/-- `p[i]` where `p` is a `double *`. -/
def numberAt (p : Option Pointer) (i : ℕ) : Effect R R := do
  match ← cellAt p i with
  | .number v => pure v
  | _ => undefined

/-- `p[i]` where it is an `int`. -/
def intAt (p : Option Pointer) (i : ℕ) : Effect R ℤ := do
  match ← cellAt p i with
  | .int n => pure n
  | _ => undefined

/-- `p[i]` where it is a pointer. -/
def pointerAt (p : Option Pointer) (i : ℕ) : Effect R (Option Pointer) := do
  match ← cellAt p i with
  | .pointer q => pure q
  | _ => undefined

/-- `malloc` and `calloc`, for a block that begins with these cells. -/
def calloc (cells : List (Cell R)) : Effect R (Option Pointer) := do
  match ← allocateBlock cells with
  | none => pure none
  | some b => pure (start b)

/-- `free`. -/
def free (p : Option Pointer) : Effect R Unit :=
  match p with
  | none => pure ()
  | some p => if p.offset = 0 then freeBlock p.block else undefined

/-- `realloc` of a block of numbers. -/
def realloc (p : Option Pointer) (n : ℕ) : Effect R (Option Pointer) :=
  match p with
  | none => undefined
  | some p =>
    if p.offset = 0 then do
      match ← reallocateBlock p.block n .raw with
      | none => pure none
      | some b => pure (start b)
    else undefined

/-- `memcpy` of `n` cells. -/
def memcpy (dst src : Option Pointer) (n : ℕ) : Effect R Unit :=
  forRange n (fun i _ => do setCell dst i (← cellAt src i)) ()

/-! ## AVX -/

/-- `__m256d` -/
structure Lanes (R : Type) where
  x0 : R
  x1 : R
  x2 : R
  x3 : R

/-- `_mm256_add_pd` and its like. -/
def Lanes.map₂ (op : R → R → R) (a b : Lanes R) : Lanes R :=
  ⟨op a.x0 b.x0, op a.x1 b.x1, op a.x2 b.x2, op a.x3 b.x3⟩

/-- `_mm256_set1_pd`; of zero, `_mm256_setzero_pd`. -/
def Lanes.splat (v : R) : Lanes R := ⟨v, v, v, v⟩

/-- `_mm256_loadu_pd(&p[i])` -/
def loaduPd (p : Option Pointer) (i : ℕ) : Effect R (Lanes R) := do
  let x0 ← numberAt p i
  let x1 ← numberAt p (i + 1)
  let x2 ← numberAt p (i + 2)
  let x3 ← numberAt p (i + 3)
  pure ⟨x0, x1, x2, x3⟩

/-- `_mm256_storeu_pd(&p[i], v)` -/
def storeuPd (p : Option Pointer) (i : ℕ) (v : Lanes R) : Effect R Unit := do
  setCell p i (.number v.x0)
  setCell p (i + 1) (.number v.x1)
  setCell p (i + 2) (.number v.x2)
  setCell p (i + 3) (.number v.x3)

/-- The two loops of an element-wise function: `lanes` and `one` compute the values that go to four
places of `out` and to one. -/
def elementwise (avx : Bool) (n : ℕ) (lanes : ℕ → Effect R (Lanes R)) (one : ℕ → Effect R R)
    (out : Option Pointer) : Effect R Unit := do
  let (i, _) ←
    if avx then strides 4 n (fun i _ => do storeuPd out i (← lanes i)) (n + 1) 0 ()
    else pure (0, ())
  let _ ← strides 1 n (fun i _ => do setCell out i (.number (← one i))) (n + 1) i ()
  pure ()

/-- The loops of the functions that combine two arrays. -/
def pointwise (avx : Bool) (op : R → R → R) (n : ℕ) (a b out : Option Pointer) : Effect R Unit :=
  elementwise avx n
    (fun i => do
      let va4 ← loaduPd a i
      let vb4 ← loaduPd b i
      pure (va4.map₂ op vb4))
    (fun i => do
      let x ← numberAt a i
      let y ← numberAt b i
      pure (op x y))
    out

/-! ## Matrices

The fields of an `impl` are read again by every method. -/

/-- What a `matrix_impl` holds, and where it is. -/
structure MatrixFields where
  /-- Where the `impl` is. -/
  impl : Option Pointer
  data : Option Pointer
  rows : ℤ
  cols : ℤ

/-- `matrix_impl_from_matrix`, with the fields that are then read. -/
def matrixImplFromMatrix (m : Option Pointer) : Effect R (Option MatrixFields) :=
  match m with
  | none => pure none
  | some m => do
    let impl ← pointerAt (some m) 0
    if impl = none then pure none
    else
      let data ← pointerAt impl 0
      let rows ← intAt impl 1
      let cols ← intAt impl 2
      pure (some ⟨impl, data, rows, cols⟩)

/-- `impl->data[row][col]` -/
def MatrixFields.entry (m : MatrixFields) (row col : ℕ) : Effect R R := do
  numberAt (← pointerAt m.data row) col

/-- `impl->data[row][col] = value` -/
def MatrixFields.setEntry (m : MatrixFields) (row col : ℕ) (value : R) : Effect R Unit := do
  setCell (← pointerAt m.data row) col (.number value)

/-- `allocate_matrix_object` and `allocate_vector_object`. -/
def allocateObject : Effect R (Option Pointer) := calloc [.pointer none]

/-- The rows of a table are made to point into one buffer. -/
def setRows (data : Option Pointer) (buffer : Pointer) (rows cols : ℕ) : Effect R Unit :=
  forRange rows (fun i _ =>
    setCell data i (.pointer (some ⟨buffer.block, buffer.offset + i * cols⟩))) ()

section

variable [Ring R]

/-- `create_matrix`. -/
def createMatrix (rows cols : ℤ) : Effect R (Option Pointer) := do
  if rows ≤ 0 ∨ cols ≤ 0 then return none
  let out ← allocateObject
  if out = none then return none
  let impl ← calloc [.pointer none, .int 0, .int 0]
  if impl = none then
    free out
    return none
  let data ← calloc (List.replicate rows.toNat (.pointer none))
  setCell impl 0 (.pointer data)
  if data = none then
    free impl
    free out
    return none
  let buffer ← calloc (List.replicate (rows.toNat * cols.toNat) (.number 0))
  match buffer with
  | none =>
    free data
    free impl
    free out
    return none
  | some b =>
    setRows data b rows.toNat cols.toNat
    setCell impl 1 (.int rows)
    setCell impl 2 (.int cols)
    setCell out 0 (.pointer impl)
    return out

/-- `matrix_get_method`. -/
def matrixGetMethod (self : Option Pointer) (row col : ℤ) : Effect R R := do
  match ← matrixImplFromMatrix self with
  | none => return 0
  | some impl =>
    if row < 0 ∨ col < 0 ∨ row ≥ impl.rows ∨ col ≥ impl.cols then return 0
    impl.entry row.toNat col.toNat

/-- `matrix_set_method`. -/
def matrixSetMethod (self : Option Pointer) (row col : ℤ) (value : R) : Effect R ℤ := do
  match ← matrixImplFromMatrix self with
  | none => return -1
  | some impl =>
    if row < 0 ∨ col < 0 ∨ row ≥ impl.rows ∨ col ≥ impl.cols then return -1
    impl.setEntry row.toNat col.toNat value
    return 0

/-- `matrix_rows_method`. -/
def matrixRowsMethod (self : Option Pointer) : Effect R ℤ := do
  match ← matrixImplFromMatrix self with
  | none => return 0
  | some impl => return impl.rows

/-- `matrix_cols_method`. -/
def matrixColsMethod (self : Option Pointer) : Effect R ℤ := do
  match ← matrixImplFromMatrix self with
  | none => return 0
  | some impl => return impl.cols

/-- A new matrix of two others, entry by entry. -/
def matrixPointwise (op : R → R → R) (avx : Bool) (self other : Option Pointer) :
    Effect R (Option Pointer) := do
  let lhs ← matrixImplFromMatrix self
  let rhs ← matrixImplFromMatrix other
  match lhs, rhs with
  | some lhs, some rhs =>
    if lhs.rows ≠ rhs.rows ∨ lhs.cols ≠ rhs.cols then return none
    let result ← createMatrix lhs.rows lhs.cols
    match ← matrixImplFromMatrix result with
    | none => return none
    | some out =>
      forRange lhs.rows.toNat (fun i _ => do
        let aRow ← pointerAt lhs.data i
        let bRow ← pointerAt rhs.data i
        let outRow ← pointerAt out.data i
        pointwise avx op lhs.cols.toNat aRow bRow outRow) ()
      return result
  | _, _ => return none

/-- `matrix_add_method`. -/
def matrixAddMethod (avx : Bool) (self other : Option Pointer) : Effect R (Option Pointer) :=
  matrixPointwise (· + ·) avx self other

/-- `matrix_subtract_method`. -/
def matrixSubtractMethod (avx : Bool) (self other : Option Pointer) : Effect R (Option Pointer) :=
  matrixPointwise (· - ·) avx self other

/-- `matrix_multiply_method`. -/
def matrixMultiplyMethod (self other : Option Pointer) : Effect R (Option Pointer) := do
  let lhs ← matrixImplFromMatrix self
  let rhs ← matrixImplFromMatrix other
  match lhs, rhs with
  | some lhs, some rhs =>
    if lhs.cols ≠ rhs.rows then return none
    let result ← createMatrix lhs.rows rhs.cols
    match ← matrixImplFromMatrix result with
    | none => return none
    | some out =>
      forRange lhs.rows.toNat (fun i _ => forRange lhs.cols.toNat (fun k _ => do
        let a ← lhs.entry i k
        forRange rhs.cols.toNat (fun j _ => do
          let b ← rhs.entry k j
          let c ← out.entry i j
          out.setEntry i j (c + a * b)) ()) ()) ()
      return result
  | _, _ => return none

/-- `matrix_transpose_method`. -/
def matrixTransposeMethod (self : Option Pointer) : Effect R (Option Pointer) := do
  match ← matrixImplFromMatrix self with
  | none => return none
  | some impl =>
    let result ← createMatrix impl.cols impl.rows
    match ← matrixImplFromMatrix result with
    | none => return none
    | some out =>
      forRange impl.rows.toNat (fun i _ => forRange impl.cols.toNat (fun j _ => do
        out.setEntry j i (← impl.entry i j)) ()) ()
      return result

/-- `matrix_copy_method`. -/
def matrixCopyMethod (self : Option Pointer) : Effect R (Option Pointer) := do
  match ← matrixImplFromMatrix self with
  | none => return none
  | some impl =>
    let copy ← createMatrix impl.rows impl.cols
    match ← matrixImplFromMatrix copy with
    | none => return none
    | some out =>
      forRange impl.rows.toNat (fun i _ => do
        let dst ← pointerAt out.data i
        let src ← pointerAt impl.data i
        memcpy dst src impl.cols.toNat) ()
      return copy

/-- `matrix_resize_method`. -/
def matrixResizeMethod (self : Option Pointer) (newRows newCols : ℤ) : Effect R ℤ := do
  match ← matrixImplFromMatrix self with
  | none => return -1
  | some impl =>
    if newRows ≤ 0 ∨ newCols ≤ 0 then return -1
    if impl.rows = newRows ∧ impl.cols = newCols then return 0
    let minRows := if impl.rows < newRows then impl.rows else newRows
    let copyCols := if impl.cols < newCols then impl.cols else newCols
    let newBuffer ← calloc (List.replicate (newRows.toNat * newCols.toNat) (.number 0))
    match newBuffer with
    | none => return -1
    | some buffer =>
      let newData ← calloc (List.replicate newRows.toNat .raw)
      if newData = none then
        free newBuffer
        return -1
      setRows newData buffer newRows.toNat newCols.toNat
      forRange minRows.toNat (fun i _ => do
        if copyCols > 0 then
          let dst ← pointerAt newData i
          let src ← pointerAt impl.data i
          memcpy dst src copyCols.toNat) ()
      free (← pointerAt impl.data 0)
      free impl.data
      setCell impl.impl 0 (.pointer newData)
      setCell impl.impl 1 (.int newRows)
      setCell impl.impl 2 (.int newCols)
      return 0

end

/-- `matrix_free_method`. -/
def matrixFreeMethod (self : Option Pointer) : Effect R Unit := do
  if self = none then return ()
  match ← matrixImplFromMatrix self with
  | none => pure ()
  | some impl =>
    if impl.data ≠ none then
      free (← pointerAt impl.data 0)
      free impl.data
    free impl.impl
    setCell self 0 (.pointer none)
  free self

/-! ## Vectors -/

/-- What a `vector_impl` holds, and where it is. -/
structure VectorFields where
  impl : Option Pointer
  data : Option Pointer
  size : ℤ

/-- `vector_impl_from_vector`, with the fields that are then read. -/
def vectorImplFromVector (v : Option Pointer) : Effect R (Option VectorFields) :=
  match v with
  | none => pure none
  | some v => do
    let impl ← pointerAt (some v) 0
    if impl = none then pure none
    else
      let data ← pointerAt impl 0
      let size ← intAt impl 1
      pure (some ⟨impl, data, size⟩)

section

variable [Ring R]

/-- `create_vector`. -/
def createVector (size : ℤ) : Effect R (Option Pointer) := do
  if size ≤ 0 then return none
  let out ← allocateObject
  if out = none then return none
  let impl ← calloc [.pointer none, .int 0]
  if impl = none then
    free out
    return none
  let data ← calloc (List.replicate size.toNat (.number 0))
  setCell impl 0 (.pointer data)
  if data = none then
    free impl
    free out
    return none
  setCell impl 1 (.int size)
  setCell out 0 (.pointer impl)
  return out

/-- `vector_get_method`. -/
def vectorGetMethod (self : Option Pointer) (index : ℤ) : Effect R R := do
  match ← vectorImplFromVector self with
  | none => return 0
  | some impl =>
    if index < 0 ∨ index ≥ impl.size then return 0
    numberAt impl.data index.toNat

/-- `vector_set_method`. -/
def vectorSetMethod (self : Option Pointer) (index : ℤ) (value : R) : Effect R ℤ := do
  match ← vectorImplFromVector self with
  | none => return -1
  | some impl =>
    if index < 0 ∨ index ≥ impl.size then return -1
    setCell impl.data index.toNat (.number value)
    return 0

/-- `vector_size_method`. -/
def vectorSizeMethod (self : Option Pointer) : Effect R ℤ := do
  match ← vectorImplFromVector self with
  | none => return 0
  | some impl => return impl.size

/-- `vector_resize_method`. -/
def vectorResizeMethod (self : Option Pointer) (newSize : ℤ) : Effect R ℤ := do
  match ← vectorImplFromVector self with
  | none => return -1
  | some impl =>
    if newSize ≤ 0 then return -1
    let newData ← realloc impl.data newSize.toNat
    if newData = none then return -1
    if newSize > impl.size then
      let _ ← strides 1 newSize.toNat (fun i _ => setCell newData i (.number 0))
        (newSize.toNat + 1) impl.size.toNat ()
    setCell impl.impl 0 (.pointer newData)
    setCell impl.impl 1 (.int newSize)
    return 0

/-- `vector_copy_method`. -/
def vectorCopyMethod (self : Option Pointer) : Effect R (Option Pointer) := do
  match ← vectorImplFromVector self with
  | none => return none
  | some impl =>
    let copy ← createVector impl.size
    match ← vectorImplFromVector copy with
    | none => return none
    | some out =>
      memcpy out.data impl.data impl.size.toNat
      return copy

/-- A new vector of two others, element by element. -/
def vectorPointwise (op : R → R → R) (avx : Bool) (a b : Option Pointer) :
    Effect R (Option Pointer) := do
  let va ← vectorImplFromVector a
  let vb ← vectorImplFromVector b
  match va, vb with
  | some va, some vb =>
    if va.size ≠ vb.size then return none
    let result ← createVector va.size
    match ← vectorImplFromVector result with
    | none => return none
    | some out =>
      pointwise avx op va.size.toNat va.data vb.data out.data
      return result
  | _, _ => return none

/-- `vector_add_simd`. -/
def vectorAddSimd (avx : Bool) (a b : Option Pointer) : Effect R (Option Pointer) :=
  vectorPointwise (· + ·) avx a b

/-- `vector_subtract_simd`. -/
def vectorSubtractSimd (avx : Bool) (a b : Option Pointer) : Effect R (Option Pointer) :=
  vectorPointwise (· - ·) avx a b

/-- `vector_dot_product_simd`. -/
def vectorDotProductSimd (avx : Bool) (a b : Option Pointer) : Effect R R := do
  let va ← vectorImplFromVector a
  let vb ← vectorImplFromVector b
  match va, vb with
  | some va, some vb =>
    if va.size ≠ vb.size then return 0
    let n := va.size.toNat
    let (i, sum) ←
      if avx then do
        let (i, acc) ← strides 4 n (fun i acc => do
          let va4 ← loaduPd va.data i
          let vb4 ← loaduPd vb.data i
          pure (acc.map₂ (· + ·) (va4.map₂ (· * ·) vb4))) (n + 1) 0 (Lanes.splat 0)
        -- the horizontal sum
        pure (i, acc.x0 + acc.x1 + acc.x2 + acc.x3)
      else pure (0, 0)
    let (_, sum) ← strides 1 n (fun i sum => do
      let x ← numberAt va.data i
      let y ← numberAt vb.data i
      pure (sum + x * y)) (n + 1) i sum
    return sum
  | _, _ => return 0

/-- `vector_scale_simd`. -/
def vectorScaleSimd (avx : Bool) (v : Option Pointer) (scalar : R) : Effect R (Option Pointer) := do
  match ← vectorImplFromVector v with
  | none => return none
  | some vi =>
    let result ← createVector vi.size
    match ← vectorImplFromVector result with
    | none => return none
    | some out =>
      let vs := Lanes.splat scalar
      elementwise avx vi.size.toNat
        (fun i => do
          let v4 ← loaduPd vi.data i
          pure (v4.map₂ (· * ·) vs))
        (fun i => do
          let x ← numberAt vi.data i
          pure (x * scalar))
        out.data
      return result

end

/-- `vector_free_method`. -/
def vectorFreeMethod (self : Option Pointer) : Effect R Unit := do
  if self = none then return ()
  match ← vectorImplFromVector self with
  | none => pure ()
  | some impl =>
    free impl.data
    setCell impl.impl 0 (.pointer none)
    free impl.impl
    setCell self 0 (.pointer none)
  free self

end Storage

end Matrix

end OvaLib
