import OvaLib.Matrix.StorageRules
import OvaLib.Matrix.Strassen

/-!
# The matrices on the heap

A matrix on the heap has four blocks. Its methods only write to blocks of its own or to those of a
new matrix, whatever else the heap holds, and do to its entries what the functions on tables do.

## The layout

The public struct has a pointer to the `impl`, which has a pointer to the table of rows and the
dimensions; row `i` of the table points into the buffer at `i` times the number of columns. The
entries of a matrix lie in the buffer row after row, and an entry is reached through the table, as
the source does it. Both dimensions are positive in every matrix, since `create_matrix` and `resize`
see to that; `free` relies on it when it frees the buffer through the first row.

## The rules

A function that makes a new matrix either has its four blocks on the heap besides what was there, or
leaves the heap as it was and returns `NULL`: whatever it had allocated by the time of a failure has
been given back. The entries of the result are stated by the functions on tables that `Matrix` and
the specification use.

## Main results

* `runs_createMatrix`, `runs_matrixFreeMethod` — a matrix comes and goes
* `runs_matrixPointwise`, `runs_matrixMultiplyMethod`, `runs_matrixTransposeMethod`,
  `runs_matrixCopyMethod` — a new matrix, or nothing
* `runs_matrixResizeMethod` — the old entries, and zeros
-/

namespace OvaLib

namespace Matrix

namespace Storage

open Foundation

variable {R : Type} {sure : Prop} {s F : Multiset (ℕ × List (Cell R))} {i j k : ℕ}

/-! ## Tables in one buffer

The entry in row `i` and column `j` is number `i * cols + j`. -/

/-- The entries of a table, row after row. The index of an entry in the buffer is its row times the
number of columns, plus its column. -/
def flatten (cols : ℕ) (r : Block R) (k : ℕ) : R := r (k / cols) (k % cols)

theorem mul_add_lt {rows cols : ℕ} (hi : i < rows) (hj : j < cols) :
    i * cols + j < rows * cols := by
  have hle : (i + 1) * cols ≤ rows * cols := Nat.mul_le_mul_right cols hi
  rw [Nat.succ_mul] at hle
  omega

theorem flatten_apply {cols : ℕ} (r : Block R) (hj : j < cols) :
    flatten cols r (i * cols + j) = r i j := by
  rw [flatten, Nat.mul_comm i, Nat.mul_add_div (Nat.zero_lt_of_lt hj), Nat.div_eq_of_lt hj,
    Nat.add_zero, Nat.mul_add_mod, Nat.mod_eq_of_lt hj]

theorem flatten_set {cols : ℕ} (r : Block R) (hj : j < cols) (v : R) :
    flatten cols (r.set i j v) = Function.update (flatten cols r) (i * cols + j) v := by
  funext k
  have hcell : k / cols = i ∧ k % cols = j ↔ k = i * cols + j := by
    constructor
    · rintro ⟨rfl, rfl⟩
      rw [Nat.mul_comm, Nat.div_add_mod]
    · rintro rfl
      rw [Nat.mul_comm i, Nat.mul_add_div (Nat.zero_lt_of_lt hj), Nat.div_eq_of_lt hj,
        Nat.mul_add_mod, Nat.mod_eq_of_lt hj]
      exact ⟨Nat.add_zero i, rfl⟩
  rw [flatten, Block.set, Function.update_apply]
  exact if_congr hcell rfl rfl

theorem copyRow_zero (r : Block R) (src : ℕ → R) : r.copyRow i src 0 = r := by
  funext x y
  exact if_neg fun h => Nat.not_lt_zero _ h.2

theorem copyRow_succ (r : Block R) (src : ℕ → R) (len : ℕ) :
    r.copyRow i src (len + 1) = (r.copyRow i src len).set i len (src len) := by
  funext x y
  rw [Block.copyRow, Block.set, Block.copyRow]
  by_cases hx : x = i
  · by_cases hy : y = len
    · rw [if_pos ⟨hx, by omega⟩, if_pos ⟨hx, hy⟩, hy]
    · rw [if_neg fun h : x = i ∧ y = len => hy h.2]
      exact if_congr (by omega) rfl rfl
  · rw [if_neg fun h => hx h.1, if_neg fun h => hx h.1, if_neg fun h => hx h.1]

/-- A table in one block, row after row. -/
def tableIn (buffer rows cols : ℕ) (r : Block R) : Multiset (ℕ × List (Cell R)) :=
  pointsTo buffer (numbers (rows * cols) (flatten cols r))

section

variable {buffer rows cols : ℕ} {r : Block R}

theorem copies_tableIn (hs : tableIn buffer rows cols r ≤ s) (hi : i < rows) :
    Copies sure s (some ⟨buffer, i * cols⟩) cols (r i) := by
  intro j hj Q hQ
  refine runs_cellAt hs (numbers_getElem? (mul_add_lt hi hj)) ?_
  rwa [flatten_apply _ hj]

/-- An entry is assigned through the pointer to its row. -/
theorem runs_setInRow (hi : i < rows) (hj : j < cols) {v : R}
    (hs : s = tableIn buffer rows cols r + F) {Q : Unit → Multiset (ℕ × List (Cell R)) → Prop}
    (hQ : Q () (tableIn buffer rows cols (r.set i j v) + F)) :
    Runs sure (setCell (some ⟨buffer, i * cols⟩) j (.number v)) s Q := by
  refine runs_setCell hs ?_ ?_
  · rw [length_numbers]
    exact mul_add_lt hi hj
  · rw [numbers_set, ← flatten_set _ hj]
    exact hQ

/-- A row is written from left to right. -/
theorem writes_tableIn (hi : i < rows) {len : ℕ} (hlen : len ≤ cols) (r : Block R)
    (src : ℕ → R) :
    Writes sure (fun j => tableIn buffer rows cols (r.copyRow i src j) + F)
      (some ⟨buffer, i * cols⟩) len src := by
  intro j hj Q hQ
  dsimp only at hQ
  rw [copyRow_succ] at hQ
  exact runs_setInRow hi (Nat.lt_of_lt_of_le hj hlen) rfl hQ

end

/-! ## A matrix on the heap -/

/-- A matrix on the heap: where its blocks are, and its entries. Both dimensions are positive, and
the entries beyond them do not matter. -/
structure MatrixRep (R : Type) where
  object : ℕ
  impl : ℕ
  /-- The row pointers. -/
  table : ℕ
  buffer : ℕ
  rows : ℕ
  cols : ℕ
  rows_pos : 0 < rows
  cols_pos : 0 < cols
  /-- The entries; outside of the dimensions they do not count. -/
  entries : Block R

/-- The row pointers into a buffer. -/
def rowPointers (buffer rows cols : ℕ) : List (Cell R) :=
  (List.range rows).map fun i => .pointer (some ⟨buffer, i * cols⟩)

theorem rowPointers_getElem? {buffer rows cols : ℕ} (hi : i < rows) :
    (rowPointers (R := R) buffer rows cols)[i]? = some (.pointer (some ⟨buffer, i * cols⟩)) := by
  rw [rowPointers, List.getElem?_map, List.getElem?_range hi]
  rfl

namespace MatrixRep

/-- The matrix with other entries. -/
def put (m : MatrixRep R) (r : Block R) : MatrixRep R := { m with entries := r }

/-- What `matrix_impl_from_matrix` reads. -/
def fields (m : MatrixRep R) : MatrixFields := ⟨start m.impl, start m.table, m.rows, m.cols⟩

/-- The blocks of a matrix but for the entries. -/
def header (m : MatrixRep R) : Multiset (ℕ × List (Cell R)) :=
  pointsTo m.table (rowPointers m.buffer m.rows m.cols) +
    (pointsTo m.impl [.pointer (start m.table), .int m.rows, .int m.cols] +
      pointsTo m.object [.pointer (start m.impl)])

/-- The blocks of a matrix: the public struct, the `impl`, the table of rows and the buffer. -/
def blocks (m : MatrixRep R) : Multiset (ℕ × List (Cell R)) :=
  tableIn m.buffer m.rows m.cols m.entries + m.header

variable {m : MatrixRep R}

theorem object_le : pointsTo m.object [.pointer (start m.impl)] ≤ m.blocks :=
  (Multiset.le_add_left _ _).trans ((Multiset.le_add_left _ _).trans (Multiset.le_add_left _ _))

theorem impl_le :
    pointsTo m.impl [.pointer (start m.table), .int m.rows, .int m.cols] ≤ m.blocks :=
  (Multiset.le_add_right _ _).trans ((Multiset.le_add_left _ _).trans (Multiset.le_add_left _ _))

theorem table_le : pointsTo m.table (rowPointers m.buffer m.rows m.cols) ≤ m.blocks :=
  (Multiset.le_add_right _ _).trans (Multiset.le_add_left _ _)

theorem runs_matrixImpl (hm : m.blocks ≤ s)
    {Q : Option MatrixFields → Multiset (ℕ × List (Cell R)) → Prop} (hQ : Q (some m.fields) s) :
    Runs sure (matrixImplFromMatrix (start m.object)) s Q := by
  refine runs_bind (runs_pointerAt (object_le.trans hm) rfl ?_)
  rw [if_neg (start_ne_none _)]
  refine runs_bind (runs_pointerAt (impl_le.trans hm) rfl ?_)
  refine runs_bind (runs_intAt (impl_le.trans hm) rfl ?_)
  exact runs_bind (runs_intAt (impl_le.trans hm) rfl (runs_pure hQ))

/-- The pointer to a row. -/
theorem runs_row (hm : m.blocks ≤ s) (hi : i < m.rows)
    {Q : Option Pointer → Multiset (ℕ × List (Cell R)) → Prop}
    (hQ : Q (some ⟨m.buffer, i * m.cols⟩) s) : Runs sure (pointerAt m.fields.data i) s Q :=
  runs_pointerAt (table_le.trans hm) (rowPointers_getElem? hi) hQ

theorem copies_row (hm : m.blocks ≤ s) (hi : i < m.rows) :
    Copies sure s (some ⟨m.buffer, i * m.cols⟩) m.cols (m.entries i) :=
  copies_tableIn ((Multiset.le_add_right _ _).trans hm) hi

theorem runs_entry (hm : m.blocks ≤ s) (hi : i < m.rows) (hj : j < m.cols)
    {Q : R → Multiset (ℕ × List (Cell R)) → Prop} (hQ : Q (m.entries i j) s) :
    Runs sure (m.fields.entry i j) s Q :=
  runs_bind (runs_row hm hi ((copies_row hm hi).reads j hj _ hQ))

theorem runs_setEntry (hi : i < m.rows) (hj : j < m.cols) {v : R}
    {Q : Unit → Multiset (ℕ × List (Cell R)) → Prop}
    (hQ : Q () ((m.put (m.entries.set i j v)).blocks + F)) :
    Runs sure (m.fields.setEntry i j v) (m.blocks + F) Q := by
  refine runs_bind (runs_row (Multiset.le_add_right _ _) hi ?_)
  refine runs_setInRow hi hj (add_assoc _ _ _) ?_
  rw [← add_assoc]
  exact hQ

theorem writes_row (hi : i < m.rows) {len : ℕ} (hlen : len ≤ m.cols) (r : Block R)
    (src : ℕ → R) :
    Writes sure (fun j => (m.put (r.copyRow i src j)).blocks + F)
      (some ⟨m.buffer, i * m.cols⟩) len src := by
  intro j hj Q hQ
  dsimp only at hQ ⊢
  rw [blocks, add_assoc] at hQ ⊢
  exact writes_tableIn hi hlen r src j hj Q hQ

/-- A loop over the entries of a matrix is the loop over a table. The body may read what it likes;
what it writes is described by a function on tables. -/
theorem runs_loop {n : ℕ} {g : ℕ → Block R → Block R} {body : ℕ → Unit → Effect R Unit}
    {r : Block R} (hs : s = (m.put r).blocks + F)
    (hbody : ∀ i < n, ∀ r, Runs sure (body i ()) ((m.put r).blocks + F)
      fun _ s' => s' = (m.put (g i r)).blocks + F)
    {Q : Unit → Multiset (ℕ × List (Cell R)) → Prop}
    (hQ : Q () ((m.put (loop n g r)).blocks + F)) : Runs sure (forRange n body ()) s Q := by
  refine runs_forRange (fun i _ s => s = (m.put (loop i g r)).blocks + F) ?_ hs ?_
  · rintro i ⟨⟩ _ hi rfl
    rw [loop_succ]
    exact hbody i hi _
  · rintro ⟨⟩ _ rfl
    exact hQ

end MatrixRep

/-! ## Creation -/

/-- The row pointers are set from first to last. Before that the cells of the table hold anything.
-/
theorem runs_setRows {table buffer rows cols : ℕ} {x : Cell R}
    {Q : Unit → Multiset (ℕ × List (Cell R)) → Prop}
    (hs : s = pointsTo table (List.replicate rows x) + F)
    (hQ : Q () (pointsTo table (rowPointers buffer rows cols) + F)) :
    Runs sure (setRows (start table) ⟨buffer, 0⟩ rows cols) s Q := by
  subst hs
  refine runs_forRange (fun i _ s => s = pointsTo table
    (rowPointers buffer i cols ++ List.replicate (rows - i) x) + F) ?_ rfl ?_
  · rintro i ⟨⟩ _ hi rfl
    have hrest : List.replicate (rows - i) x = x :: List.replicate (rows - (i + 1)) x := by
      rw [← List.replicate_succ]
      congr 1
      omega
    have hlen : (rowPointers (R := R) buffer i cols).length = i := by
      rw [rowPointers, List.length_map, List.length_range]
    refine runs_setField rfl ?_ ?_
    · rw [List.length_append, hlen, List.length_replicate]
      omega
    · rw [hrest, List.set_append_right _ _ (Nat.le_of_eq hlen), hlen, Nat.sub_self,
        List.set_cons_zero, Nat.zero_add, rowPointers, rowPointers, List.range_succ,
        List.map_append, List.append_assoc]
      rfl
  · rintro ⟨⟩ _ rfl
    rwa [Nat.sub_self, List.replicate_zero, List.append_nil]

theorem numbers_zeroBlock [Ring R] (rows cols : ℕ) :
    List.replicate (rows * cols) (.number 0) =
      numbers (rows * cols) (flatten cols (zeroBlock : Block R)) := numbers_zero _

section

variable [Ring R]

/-- **A matrix is created**, or the heap is as it was. It is refused for dimensions that are not
positive, and otherwise only when one of the four allocations fails. -/
theorem runs_createMatrix {rows cols : ℤ}
    {Q : Option Pointer → Multiset (ℕ × List (Cell R)) → Prop}
    (hnone : (0 < rows → 0 < cols → ¬ sure) → Q none s)
    (hsome : ∀ m : MatrixRep R, m.rows = rows → m.cols = cols → m.entries = zeroBlock →
      Q (start m.object) (m.blocks + s)) :
    Runs sure (Storage.createMatrix rows cols) s Q := by
  rw [Storage.createMatrix]
  split
  · next hdim => exact runs_pure (hnone fun hrows hcols => by omega)
  next hdim =>
  obtain ⟨hrows, hcols⟩ := not_or.mp hdim
  lift rows to ℕ using by omega
  lift cols to ℕ using by omega
  rw [Int.toNat_natCast, Int.toNat_natCast]
  have hfail : ¬ sure → Q none s := fun h => hnone fun _ _ => h
  refine runs_bind (runs_calloc (fun h => runs_pure (hfail h)) fun object => ?_)
  rw [if_neg (start_ne_none _)]
  refine runs_bind (runs_calloc (fun h => ?_) fun impl => ?_)
  · exact runs_bind (runs_freeStart rfl (runs_pure (hfail h)))
  rw [if_neg (start_ne_none _)]
  refine runs_bind (runs_calloc (fun h => ?_) fun table => ?_)
  · refine runs_bind (runs_setField rfl (by simp) ?_)
    exact runs_bind (runs_freeStart rfl (runs_bind (runs_freeStart rfl (runs_pure (hfail h)))))
  refine runs_bind (runs_setField (add_left_comm _ _ _) (by simp) ?_)
  rw [if_neg (start_ne_none _)]
  refine runs_bind (runs_calloc (fun h => ?_) fun buffer => ?_)
  · refine runs_bind (runs_freeStart (add_left_comm _ _ _) ?_)
    exact runs_bind (runs_freeStart rfl (runs_bind (runs_freeStart rfl (runs_pure (hfail h)))))
  refine runs_bind (runs_setRows (add_third_comm _ _ _ _) ?_)
  refine runs_bind (runs_setField (add_third_comm _ _ _ _) (by simp) ?_)
  refine runs_bind (runs_setField rfl (by simp) ?_)
  refine runs_bind (runs_setField (add_fourth_comm _ _ _ _ _) (by simp) ?_)
  refine runs_pure ?_
  have hm := hsome ⟨object, impl, table, buffer, rows, cols, by omega, by omega, zeroBlock⟩
    rfl rfl rfl
  convert hm using 1
  rw [numbers_zeroBlock, MatrixRep.blocks, MatrixRep.header, tableIn]
  simp only [List.set_cons_zero, List.set_cons_succ]
  ac_rfl

/-! ## New matrices

The blocks of each operand are among those on the heap, so the operands may be one matrix. -/

/-- A method that creates a matrix and fills it. All methods that return a matrix have this form, so
what they do on a failure is proved here once. -/
theorem runs_newMatrix {rows cols : ℤ} {k : MatrixFields → Effect R Unit}
    {Q : Option Pointer → Multiset (ℕ × List (Cell R)) → Prop}
    (hnone : (0 < rows → 0 < cols → ¬ sure) → Q none s)
    (hsome : ∀ m : MatrixRep R, m.rows = rows → m.cols = cols → m.entries = zeroBlock →
      Runs sure (k m.fields) (m.blocks + s) fun _ s' => Q (start m.object) s') :
    Runs sure (do
      let result ← Storage.createMatrix rows cols
      match ← matrixImplFromMatrix result with
      | none => return none
      | some out =>
        k out
        return result) s Q := by
  refine runs_bind (runs_createMatrix (fun h => ?_) fun m hrows hcols hzero => ?_)
  · exact runs_bind (runs_pure (runs_pure (hnone h)))
  · refine runs_bind (MatrixRep.runs_matrixImpl (Multiset.le_add_right _ _) ?_)
    exact runs_bind ((hsome m hrows hcols hzero).mono fun _ _ hQ => runs_pure hQ)

/-- **A matrix of two others, entry by entry**, with AVX and without. The two operands may be the
same. -/
theorem runs_matrixPointwise {op : R → R → R} {avx : Bool} {a b : MatrixRep R}
    (ha : a.blocks ≤ s) (hb : b.blocks ≤ s)
    {Q : Option Pointer → Multiset (ℕ × List (Cell R)) → Prop}
    (hnone : (a.rows = b.rows → a.cols = b.cols → ¬ sure) → Q none s)
    (hsome : a.rows = b.rows → a.cols = b.cols → ∀ m : MatrixRep R, m.rows = a.rows →
      m.cols = a.cols →
      (∀ x < a.rows, ∀ y < a.cols, m.entries x y = op (a.entries x y) (b.entries x y)) →
      Q (start m.object) (m.blocks + s)) :
    Runs sure (matrixPointwise op avx (start a.object) (start b.object)) s Q := by
  refine runs_bind (MatrixRep.runs_matrixImpl ha ?_)
  refine runs_bind (MatrixRep.runs_matrixImpl hb ?_)
  dsimp only [MatrixRep.fields]
  split
  · next hdim => exact runs_pure (hnone fun hr hc => by omega)
  next hdim =>
  have hrows : a.rows = b.rows := by omega
  have hcols : a.cols = b.cols := by omega
  refine runs_newMatrix (fun h => hnone fun _ _ => ?_) fun m hr hc hzero => ?_
  · exact h (by exact_mod_cast a.rows_pos) (by exact_mod_cast a.cols_pos)
  have hmr : m.rows = a.rows := by omega
  have hmc : m.cols = a.cols := by omega
  rw [Int.toNat_natCast, Int.toNat_natCast]
  refine MatrixRep.runs_loop (m := m) (g := fun i r =>
    r.copyRow i (fun j => op (a.entries i j) (b.entries i j)) a.cols) rfl (fun i hi r => ?_) ?_
  · have hrest : ∀ r', s ≤ (m.put r').blocks + s := fun r' => Multiset.le_add_left _ _
    refine runs_bind (MatrixRep.runs_row (ha.trans (hrest r)) hi ?_)
    refine runs_bind (MatrixRep.runs_row (hb.trans (hrest r)) (hrows ▸ hi) ?_)
    refine runs_bind (MatrixRep.runs_row (m := m.put r) (Multiset.le_add_right _ _)
      (show i < m.rows by omega) ?_)
    refine runs_pointwise avx op
      (m.writes_row (show i < m.rows by omega) (Nat.le_of_eq hmc.symm) r _)
      (fun j hj => ?_) (fun j hj => ?_) ?_ rfl
    · exact (MatrixRep.copies_row (ha.trans (hrest _)) hi).reads
    · exact (MatrixRep.copies_row (hb.trans (hrest _)) (hrows ▸ hi)).reads.mono (Nat.le_of_eq hcols)
    · rw [copyRow_zero]
  · refine hsome hrows hcols (m.put (loop _ _ _)) hmr hmc fun x hx y hy => ?_
    have hfill :=
      copyRows_eq m.entries (fun i j => op (a.entries i j) (b.entries i j)) a.rows a.cols
    refine (congrFun (congrFun hfill x) y).trans ?_
    exact if_pos ⟨hx, hy⟩

/-- **The plain product.** -/
theorem runs_matrixMultiplyMethod {a b : MatrixRep R} (ha : a.blocks ≤ s) (hb : b.blocks ≤ s)
    {Q : Option Pointer → Multiset (ℕ × List (Cell R)) → Prop}
    (hnone : (a.cols = b.rows → ¬ sure) → Q none s)
    (hsome : a.cols = b.rows → ∀ m : MatrixRep R, m.rows = a.rows → m.cols = b.cols →
      (∀ x < a.rows, ∀ y < b.cols,
        m.entries x y = ∑ k ∈ Finset.range a.cols, a.entries x k * b.entries k y) →
      Q (start m.object) (m.blocks + s)) :
    Runs sure (Storage.matrixMultiplyMethod (start a.object) (start b.object)) s Q := by
  refine runs_bind (MatrixRep.runs_matrixImpl ha ?_)
  refine runs_bind (MatrixRep.runs_matrixImpl hb ?_)
  dsimp only [MatrixRep.fields]
  split
  · next hdim => exact runs_pure (hnone fun hr => by omega)
  next hdim =>
  have hinner : a.cols = b.rows := by omega
  refine runs_newMatrix (fun h => hnone fun _ => ?_) fun m hr hc hzero => ?_
  · exact h (by exact_mod_cast a.rows_pos) (by exact_mod_cast b.cols_pos)
  have hmr : m.rows = a.rows := by omega
  have hmc : m.cols = b.cols := by omega
  have hrest : ∀ r', s ≤ (m.put r').blocks + s := fun r' => Multiset.le_add_left _ _
  rw [Int.toNat_natCast, Int.toNat_natCast, Int.toNat_natCast]
  refine MatrixRep.runs_loop (m := m) (g := fun i => loop a.cols fun k => loop b.cols fun j r =>
    r.set i j (r i j + a.entries i k * b.entries k j)) rfl (fun i hi r => ?_) ?_
  · refine MatrixRep.runs_loop (m := m) (g := fun k => loop b.cols fun j r =>
      r.set i j (r i j + a.entries i k * b.entries k j)) rfl (fun k hk r => ?_) rfl
    refine runs_bind (MatrixRep.runs_entry (ha.trans (hrest r)) hi hk ?_)
    refine MatrixRep.runs_loop (m := m) (g := fun j r =>
      r.set i j (r i j + a.entries i k * b.entries k j)) rfl (fun j hj r => ?_) rfl
    refine runs_bind (MatrixRep.runs_entry (hb.trans (hrest r)) (hinner ▸ hk) hj ?_)
    refine runs_bind (MatrixRep.runs_entry (m := m.put r) (Multiset.le_add_right _ _)
      (show i < m.rows by omega) (show j < m.cols by omega) ?_)
    exact MatrixRep.runs_setEntry (m := m.put r) (show i < m.rows by omega)
      (show j < m.cols by omega) rfl
  · refine hsome hinner (m.put (loop _ _ _)) hmr hmc fun x hx y hy => ?_
    refine (accumulate_apply a.entries b.entries hx hy).trans ?_
    rw [hzero]
    exact zero_add _

/-- **The transpose.** -/
theorem runs_matrixTransposeMethod {a : MatrixRep R} (ha : a.blocks ≤ s)
    {Q : Option Pointer → Multiset (ℕ × List (Cell R)) → Prop} (hnone : ¬ sure → Q none s)
    (hsome : ∀ m : MatrixRep R, m.rows = a.cols → m.cols = a.rows →
      (∀ x < a.cols, ∀ y < a.rows, m.entries x y = a.entries y x) →
      Q (start m.object) (m.blocks + s)) :
    Runs sure (matrixTransposeMethod (start a.object)) s Q := by
  refine runs_bind (MatrixRep.runs_matrixImpl ha ?_)
  dsimp only [MatrixRep.fields]
  refine runs_newMatrix (fun h => hnone ?_) fun m hr hc hzero => ?_
  · exact h (by exact_mod_cast a.cols_pos) (by exact_mod_cast a.rows_pos)
  have hmr : m.rows = a.cols := by omega
  have hmc : m.cols = a.rows := by omega
  rw [Int.toNat_natCast, Int.toNat_natCast]
  refine MatrixRep.runs_loop (m := m) (g := fun i => loop a.cols fun j r =>
    r.set j i (a.entries i j)) rfl (fun i hi r => ?_) ?_
  · refine MatrixRep.runs_loop (m := m) (g := fun j r => r.set j i (a.entries i j)) rfl
      (fun j hj r => ?_) rfl
    refine runs_bind (MatrixRep.runs_entry (ha.trans (Multiset.le_add_left _ _)) hi hj ?_)
    exact MatrixRep.runs_setEntry (m := m.put r) (show j < m.rows by omega)
      (show i < m.cols by omega) rfl
  · refine hsome (m.put (loop _ _ _)) hmr hmc fun x hx y hy => ?_
    refine loop_once hy (G := fun _ => a.entries y x) (fun r => ?_) (fun i _ hne r => ?_) _
    · exact loop_once hx (G := fun _ => a.entries y x) (fun r => set_self)
        (fun j _ hne r => set_of_ne (.inl hne.symm)) r
    · exact loop_none (fun j _ r => set_of_ne (.inr hne.symm)) r

/-- **The copy.** -/
theorem runs_matrixCopyMethod {a : MatrixRep R} (ha : a.blocks ≤ s)
    {Q : Option Pointer → Multiset (ℕ × List (Cell R)) → Prop} (hnone : ¬ sure → Q none s)
    (hsome : ∀ m : MatrixRep R, m.rows = a.rows → m.cols = a.cols →
      (∀ x < a.rows, ∀ y < a.cols, m.entries x y = a.entries x y) →
      Q (start m.object) (m.blocks + s)) :
    Runs sure (matrixCopyMethod (start a.object)) s Q := by
  refine runs_bind (MatrixRep.runs_matrixImpl ha ?_)
  dsimp only [MatrixRep.fields]
  refine runs_newMatrix (fun h => hnone ?_) fun m hr hc hzero => ?_
  · exact h (by exact_mod_cast a.rows_pos) (by exact_mod_cast a.cols_pos)
  have hmr : m.rows = a.rows := by omega
  have hmc : m.cols = a.cols := by omega
  have hrest : ∀ r', s ≤ (m.put r').blocks + s := fun r' => Multiset.le_add_left _ _
  rw [Int.toNat_natCast, Int.toNat_natCast]
  refine MatrixRep.runs_loop (m := m) (g := fun i r => r.copyRow i (a.entries i) a.cols) rfl
    (fun i hi r => ?_) ?_
  · refine runs_bind (MatrixRep.runs_row (m := m.put r) (Multiset.le_add_right _ _)
      (show i < m.rows by omega) ?_)
    refine runs_bind (MatrixRep.runs_row (ha.trans (hrest r)) hi ?_)
    refine runs_memcpy (m.writes_row (show i < m.rows by omega) (Nat.le_of_eq hmc.symm) r _)
      (fun j hj => MatrixRep.copies_row (ha.trans (hrest _)) hi) ?_ rfl
    rw [copyRow_zero]
  · refine hsome (m.put (loop _ _ _)) hmr hmc fun x hx y hy => ?_
    refine (congrFun (congrFun (copyRows_eq m.entries a.entries a.rows a.cols) x) y).trans ?_
    exact if_pos ⟨hx, hy⟩

/-! ## Methods that read, write or replace entries -/

omit [Ring R] in
/-- An `int` index is in range. -/
theorem inRange_iff {row col : ℤ} {m : MatrixRep R} :
    ¬ (row < 0 ∨ col < 0 ∨ row ≥ m.rows ∨ col ≥ m.cols) ↔
      ∃ x < m.rows, ∃ y < m.cols, row = (x : ℤ) ∧ col = (y : ℤ) := by
  constructor
  · intro h
    exact ⟨row.toNat, by omega, col.toNat, by omega, by omega, by omega⟩
  · rintro ⟨x, hx, y, hy, rfl, rfl⟩
    omega

/-- `get`; 0 outside the matrix. -/
theorem runs_matrixGetMethod {m : MatrixRep R} (hm : m.blocks ≤ s) {row col : ℤ}
    {Q : R → Multiset (ℕ × List (Cell R)) → Prop}
    (hin : ∀ x < m.rows, ∀ y < m.cols, row = x → col = y → Q (m.entries x y) s)
    (hout : (¬ ∃ x < m.rows, ∃ y < m.cols, row = (x : ℤ) ∧ col = (y : ℤ)) → Q 0 s) :
    Runs sure (matrixGetMethod (start m.object) row col) s Q := by
  refine runs_bind (MatrixRep.runs_matrixImpl hm ?_)
  dsimp only
  split
  · next h => exact runs_pure (hout fun hex => inRange_iff.mpr hex h)
  · next h =>
    obtain ⟨x, hx, y, hy, rfl, rfl⟩ := inRange_iff.mp h
    exact MatrixRep.runs_entry hm hx hy (hin x hx y hy rfl rfl)

omit [Ring R] in
/-- `set`; -1 outside the matrix. -/
theorem runs_matrixSetMethod {m : MatrixRep R} (hs : s = m.blocks + F) {row col : ℤ} {value : R}
    {Q : ℤ → Multiset (ℕ × List (Cell R)) → Prop}
    (hin : ∀ x < m.rows, ∀ y < m.cols, row = x → col = y →
      Q 0 ((m.put (m.entries.set x y value)).blocks + F))
    (hout : (¬ ∃ x < m.rows, ∃ y < m.cols, row = (x : ℤ) ∧ col = (y : ℤ)) → Q (-1) s) :
    Runs sure (matrixSetMethod (start m.object) row col value) s Q := by
  subst hs
  refine runs_bind (MatrixRep.runs_matrixImpl (Multiset.le_add_right _ _) ?_)
  dsimp only
  split
  · next h => exact runs_pure (hout fun hex => inRange_iff.mpr hex h)
  · next h =>
    obtain ⟨x, hx, y, hy, rfl, rfl⟩ := inRange_iff.mp h
    exact runs_bind (MatrixRep.runs_setEntry hx hy (runs_pure (hin x hx y hy rfl rfl)))

/-- The rows that a resized matrix keeps, up to the smaller of the two numbers of columns. They are
copied from the old buffer, which is freed afterwards. -/
theorem runs_keepRows {m : MatrixRep R} {buffer table rows cols : ℕ} (hm : m.blocks ≤ F)
    (htable : pointsTo table (rowPointers buffer rows cols) ≤ F) {n len : ℕ} (hn : n ≤ m.rows)
    (hn' : n ≤ rows) (hpos : (len : ℤ) > 0) (hlen : len ≤ m.cols) (hlen' : len ≤ cols)
    (hs : s = tableIn buffer rows cols (zeroBlock : Block R) + F)
    {Q : Unit → Multiset (ℕ × List (Cell R)) → Prop}
    (hQ : Q () (tableIn buffer rows cols (copyRows zeroBlock m.entries n len) + F)) :
    Runs sure (forRange n (fun i _ => do
      if (len : ℤ) > 0 then
        let dst ← pointerAt (start table) i
        let src ← pointerAt m.fields.data i
        memcpy dst src (len : ℤ).toNat) ()) s Q := by
  refine runs_forRange (fun i _ s => s = tableIn buffer rows cols
    (copyRows zeroBlock m.entries i len) + F) ?_ hs ?_
  · rintro i ⟨⟩ _ hi rfl
    have hrest : ∀ r', F ≤ tableIn buffer rows cols r' + F := fun r' => Multiset.le_add_left _ _
    rw [if_pos hpos, Int.toNat_natCast]
    refine runs_bind (runs_pointerAt (htable.trans (hrest _))
      (rowPointers_getElem? (show i < rows by omega)) ?_)
    refine runs_bind (MatrixRep.runs_row (hm.trans (hrest _)) (by omega) ?_)
    refine runs_memcpy (writes_tableIn (F := F) (show i < rows by omega) hlen'
      (copyRows zeroBlock m.entries i len) (m.entries i)) (fun j hj k hk => ?_) ?_ ?_
    · exact MatrixRep.copies_row (hm.trans (hrest _)) (by omega) k (by omega)
    · rw [copyRow_zero]
    · have hsucc : copyRows zeroBlock m.entries (i + 1) len =
          (copyRows zeroBlock m.entries i len).copyRow i (m.entries i) len := loop_succ _ _ _
      rw [hsucc]
  · rintro ⟨⟩ _ rfl
    exact hQ

theorem ite_lt_eq_min (a b : ℕ) : (if (a : ℤ) < b then (a : ℤ) else b) = (min a b : ℕ) := by
  split <;> omega

/-- **`resize` keeps what it can, and fills with zeros**; -1 leaves the matrix as it was. The new
buffer and the new table are both there before anything of the old ones is given up. -/
theorem runs_matrixResizeMethod {m : MatrixRep R} (hs : s = m.blocks + F) {newRows newCols : ℤ}
    {Q : ℤ → Multiset (ℕ × List (Cell R)) → Prop}
    (hbad : (0 < newRows → 0 < newCols → ¬ sure) → Q (-1) s)
    (hdone : ∀ m' : MatrixRep R, m'.object = m.object → m'.rows = newRows → m'.cols = newCols →
      (∀ x < m'.rows, ∀ y < m'.cols,
        m'.entries x y = if x < m.rows ∧ y < m.cols then m.entries x y else 0) →
      Q 0 (m'.blocks + F)) :
    Runs sure (matrixResizeMethod (start m.object) newRows newCols) s Q := by
  subst hs
  refine runs_bind (MatrixRep.runs_matrixImpl (Multiset.le_add_right _ _) ?_)
  dsimp only
  split
  · next h => exact runs_pure (hbad fun hr hc => by omega)
  next hpos =>
  obtain ⟨hr, hc⟩ := not_or.mp hpos
  have hfail : ¬ sure → Q (-1) (m.blocks + F) := fun h => hbad fun _ _ => h
  split
  · next hsame =>
    refine runs_pure (hdone m rfl hsame.1 hsame.2 fun x hx y hy => ?_)
    rw [if_pos ⟨hx, hy⟩]
  lift newRows to ℕ using by omega
  lift newCols to ℕ using by omega
  rw [Int.toNat_natCast, Int.toNat_natCast]
  refine runs_bind (runs_calloc (fun h => runs_pure (hfail h)) fun buffer => ?_)
  refine runs_bind (runs_calloc (fun h => ?_) fun table => ?_)
  · exact runs_bind (runs_freeStart rfl (runs_pure (hfail h)))
  rw [if_neg (start_ne_none _)]
  refine runs_bind (runs_setRows rfl ?_)
  have hrows : (if m.fields.rows < newRows then m.fields.rows else (newRows : ℤ)).toNat =
      min m.rows newRows := congrArg Int.toNat (ite_lt_eq_min m.rows newRows)
  have hcols : (if m.fields.cols < newCols then m.fields.cols else (newCols : ℤ)) =
      (min m.cols newCols : ℕ) := ite_lt_eq_min m.cols newCols
  have hpos : ((min m.cols newCols : ℕ) : ℤ) > 0 := by
    have := m.cols_pos
    omega
  rw [hrows, hcols, numbers_zeroBlock]
  refine runs_bind (runs_keepRows (m := m)
    (F := pointsTo table (rowPointers buffer newRows newCols) + (m.blocks + F)) ?_
    (Multiset.le_add_right _ _) (Nat.min_le_left _ _) (Nat.min_le_right _ _) hpos
    (Nat.min_le_left _ _) (Nat.min_le_right _ _) (add_left_comm _ _ _) ?_)
  · exact (Multiset.le_add_right _ _).trans (Multiset.le_add_left _ _)
  refine runs_bind (MatrixRep.runs_row (m := m) ?_ m.rows_pos ?_)
  · exact (Multiset.le_add_right _ _).trans ((Multiset.le_add_left _ _).trans
      (Multiset.le_add_left _ _))
  rw [Nat.zero_mul, MatrixRep.blocks, MatrixRep.header, add_assoc, add_assoc, add_assoc]
  refine runs_bind (runs_freeStart (add_third_comm _ _ _ _) ?_)
  refine runs_bind (runs_freeStart (add_third_comm _ _ _ _) ?_)
  refine runs_bind (runs_setField (add_third_comm _ _ _ _) (by simp) ?_)
  refine runs_bind (runs_setField rfl (by simp) ?_)
  refine runs_bind (runs_setField rfl (by simp) (runs_pure ?_))
  have hm := hdone ⟨m.object, m.impl, table, buffer, newRows, newCols, by omega, by omega,
    copyRows zeroBlock m.entries (min m.rows newRows) (min m.cols newCols)⟩ rfl rfl rfl
    fun x hx y hy => ?_
  · convert hm using 1
    rw [MatrixRep.blocks, MatrixRep.header]
    simp only [List.set_cons_zero, List.set_cons_succ]
    ac_rfl
  · rw [copyRows_eq]
    refine if_congr ?_ rfl rfl
    dsimp only at hx hy
    omega

omit [Ring R] in
/-- **The blocks of a matrix are freed.** The buffer is found through the first row, which is there
because a matrix has at least one. -/
theorem runs_matrixFreeMethod {m : MatrixRep R} (hs : s = m.blocks + F)
    {Q : Unit → Multiset (ℕ × List (Cell R)) → Prop} (hQ : Q () F) :
    Runs sure (matrixFreeMethod (start m.object)) s Q := by
  subst hs
  rw [matrixFreeMethod, if_neg (start_ne_none _)]
  refine runs_bind (MatrixRep.runs_matrixImpl (Multiset.le_add_right _ _) ?_)
  have hdata : m.fields.data ≠ none := start_ne_none _
  dsimp only
  rw [if_pos hdata]
  refine runs_bind (MatrixRep.runs_row (Multiset.le_add_right _ _) m.rows_pos ?_)
  rw [Nat.zero_mul, MatrixRep.blocks, add_assoc, MatrixRep.header, add_assoc, add_assoc]
  refine runs_bind (runs_freeStart rfl ?_)
  refine runs_bind (runs_freeStart rfl ?_)
  refine runs_bind (runs_freeStart rfl ?_)
  refine runs_bind (runs_setField rfl (by simp) ?_)
  exact runs_freeStart rfl hQ

end

end Storage

end Matrix

end OvaLib
