import OvaLib.Matrix.Storage

/-!
# Rules for matrices and vectors in memory

What the primitive operations of the storage do, and the objects as the heap holds them: the blocks
of a matrix and of a vector, how entries are read and written, and how objects come and go. The
loops of the element-wise functions have one rule, with and without AVX.

A rule `Runs` says: on a heap that consists of some blocks and others, a program has a result, and
the heap then consists of the blocks that the rule names and the same others. The others are
arbitrary, so a rule that was proved for the blocks at hand applies wherever these are part of the
heap. Programs are composed by the rules of the library for sequences, loops and case distinctions.

The element-wise loop is one program with the operation as a parameter, on four elements and on one.
Its rule asks that the two agree, and gives the same result with and without AVX, for lengths that
are no multiple of four too.

## Main results

* `runs_createMatrix`, `runs_createVector` — an object is created, or the heap is as it was
* `runs_matrixFreeMethod`, `runs_vectorFreeMethod` — the blocks of an object are freed
* `runs_elementwise` — the element-wise loops, four elements at a time or one
-/

namespace OvaLib

namespace Matrix

namespace Storage

open Foundation

variable {R ρ : Type} {sure : Prop} {s F : Multiset (ℕ × List (Cell R))} {b i j n : ℕ}
  {cells : List (Cell R)} {p : Pointer}

/-! ## Primitives

One rule for each operation on memory. -/

theorem runs_cellAt {v : Cell R} {Q : Cell R → Multiset (ℕ × List (Cell R)) → Prop}
    (hp : pointsTo p.block cells ≤ s) (hv : cells[p.offset + i]? = some v) (hQ : Q v s) :
    Runs sure (cellAt (some p) i) s Q := runs_readCell hp hv hQ

theorem runs_numberAt {v : R} {Q : R → Multiset (ℕ × List (Cell R)) → Prop}
    (hp : pointsTo p.block cells ≤ s) (hv : cells[p.offset + i]? = some (.number v)) (hQ : Q v s) :
    Runs sure (numberAt (some p) i) s Q := runs_bind (runs_cellAt hp hv (runs_pure hQ))

theorem runs_intAt {v : ℤ} {Q : ℤ → Multiset (ℕ × List (Cell R)) → Prop}
    (hb : pointsTo b cells ≤ s) (hv : cells[i]? = some (.int v)) (hQ : Q v s) :
    Runs sure (intAt (start b) i) s Q := by
  rw [← Nat.zero_add i] at hv
  exact runs_bind (runs_cellAt (p := ⟨b, 0⟩) hb hv (runs_pure hQ))

theorem runs_pointerAt {q : Option Pointer}
    {Q : Option Pointer → Multiset (ℕ × List (Cell R)) → Prop}
    (hb : pointsTo b cells ≤ s) (hv : cells[i]? = some (.pointer q)) (hQ : Q q s) :
    Runs sure (pointerAt (start b) i) s Q := by
  rw [← Nat.zero_add i] at hv
  exact runs_bind (runs_cellAt (p := ⟨b, 0⟩) hb hv (runs_pure hQ))

theorem runs_setCell {v : Cell R} {Q : Unit → Multiset (ℕ × List (Cell R)) → Prop}
    (hs : s = pointsTo p.block cells + F) (hi : p.offset + i < cells.length)
    (hQ : Q () (pointsTo p.block (cells.set (p.offset + i) v) + F)) :
    Runs sure (setCell (some p) i v) s Q := runs_writeCell hs hi hQ

theorem runs_setField {v : Cell R} {Q : Unit → Multiset (ℕ × List (Cell R)) → Prop}
    (hs : s = pointsTo b cells + F) (hi : i < cells.length)
    (hQ : Q () (pointsTo b (cells.set i v) + F)) : Runs sure (setCell (start b) i v) s Q := by
  rw [← Nat.zero_add i] at hi hQ
  exact runs_setCell (p := ⟨b, 0⟩) hs hi hQ

theorem runs_calloc {Q : Option Pointer → Multiset (ℕ × List (Cell R)) → Prop}
    (hnone : ¬ sure → Q none s) (hsome : ∀ b, Q (start b) (pointsTo b cells + s)) :
    Runs sure (calloc cells) s Q := by
  refine runs_bind (runs_allocateBlock (fun hsure => ?_) fun b => ?_)
  · exact runs_pure (hnone hsure)
  · exact runs_pure (hsome b)

theorem runs_freeStart {Q : Unit → Multiset (ℕ × List (Cell R)) → Prop}
    (hs : s = pointsTo b cells + F) (hQ : Q () F) : Runs sure (Storage.free (start b)) s Q := by
  rw [start, Storage.free, if_pos rfl]
  exact runs_freeBlock hs hQ

theorem runs_realloc {Q : Option Pointer → Multiset (ℕ × List (Cell R)) → Prop}
    (hs : s = pointsTo b cells + F) (hnone : ¬ sure → Q none s)
    (hsome : ∀ b', Q (start b')
      (pointsTo b' (cells.take n ++ List.replicate (n - cells.length) .raw) + F)) :
    Runs sure (realloc (start b) n) s Q := by
  rw [start, realloc, if_pos rfl]
  refine runs_bind (runs_reallocateBlock hs (fun hsure => ?_) fun b' => ?_)
  · exact runs_pure (hnone hsure)
  · exact runs_pure (hsome b')

@[simp] theorem start_ne_none (b : ℕ) : ¬ start b = none := Option.some_ne_none _

/-! ## Arrays of numbers -/

/-- `n` numbers. -/
def numbers (n : ℕ) (f : ℕ → R) : List (Cell R) := (List.range n).map fun k => .number (f k)

@[simp] theorem length_numbers (n : ℕ) (f : ℕ → R) : (numbers n f).length = n := by
  rw [numbers, List.length_map, List.length_range]

theorem numbers_getElem? {f : ℕ → R} (hi : i < n) : (numbers n f)[i]? = some (.number (f i)) := by
  rw [numbers, List.getElem?_map, List.getElem?_range hi]
  rfl

theorem numbers_congr {f g : ℕ → R} (h : ∀ k < n, f k = g k) : numbers n f = numbers n g := by
  refine List.map_congr_left fun k hk => ?_
  rw [h k (List.mem_range.mp hk)]

theorem numbers_set (f : ℕ → R) (v : R) :
    (numbers n f).set i (.number v) = numbers n (Function.update f i v) := by
  refine List.ext_getElem? fun k => ?_
  rw [List.getElem?_set]
  by_cases hk : k < n
  · rw [numbers_getElem? hk, numbers_getElem? hk]
    split
    · next heq =>
      subst heq
      rw [length_numbers, if_pos hk, Function.update_self]
    · next hne => rw [Function.update_of_ne (Ne.symm hne)]
  · have hlen : n ≤ k := Nat.le_of_not_lt hk
    rw [List.getElem?_eq_none (by rwa [length_numbers]),
      List.getElem?_eq_none (by rwa [length_numbers])]
    split
    · next heq => rw [length_numbers, heq, if_neg hk]
    · rfl

theorem numbers_zero [Zero R] (n : ℕ) :
    List.replicate n (.number 0) = numbers n fun _ => (0 : R) := by
  rw [numbers, List.map_const', List.length_range]

/-- The first `n` elements behind a pointer can be read. -/
def Reads (sure : Prop) (s : Multiset (ℕ × List (Cell R))) (p : Option Pointer) (n : ℕ)
    (f : ℕ → R) : Prop :=
  ∀ i < n, ∀ Q : R → Multiset (ℕ × List (Cell R)) → Prop, Q (f i) s → Runs sure (numberAt p i) s Q

/-- They are numbers in memory, and stay so when they are copied. -/
def Copies (sure : Prop) (s : Multiset (ℕ × List (Cell R))) (p : Option Pointer) (n : ℕ)
    (f : ℕ → R) : Prop :=
  ∀ i < n, ∀ Q : Cell R → Multiset (ℕ × List (Cell R)) → Prop, Q (.number (f i)) s →
    Runs sure (cellAt p i) s Q

theorem Copies.reads {p : Option Pointer} {f : ℕ → R} (h : Copies sure s p n f) :
    Reads sure s p n f := by
  intro i hi Q hQ
  exact runs_bind (h i hi _ (runs_pure hQ))

theorem Reads.mono {p : Option Pointer} {f : ℕ → R} {m : ℕ} (h : Reads sure s p n f)
    (hmn : m ≤ n) : Reads sure s p m f := fun i hi => h i (Nat.lt_of_lt_of_le hi hmn)

theorem runs_loaduPd {p : Option Pointer} {f : ℕ → R} (h : Reads sure s p n f) (hi : i + 4 ≤ n)
    {Q : Lanes R → Multiset (ℕ × List (Cell R)) → Prop}
    (hQ : Q ⟨f i, f (i + 1), f (i + 2), f (i + 3)⟩ s) : Runs sure (loaduPd p i) s Q := by
  refine runs_bind (h i (by omega) _ ?_)
  refine runs_bind (h (i + 1) (by omega) _ ?_)
  refine runs_bind (h (i + 2) (by omega) _ ?_)
  exact runs_bind (h (i + 3) (by omega) _ (runs_pure hQ))

/-! ## Element-wise loops

The elements written so far are a prefix, whichever way they came about. -/

section

variable {out : Option Pointer} {f : ℕ → R} {W : ℕ → Multiset (ℕ × List (Cell R))}

/-- `W i` is memory with the first `i` elements behind a pointer written. -/
def Writes (sure : Prop) (W : ℕ → Multiset (ℕ × List (Cell R))) (out : Option Pointer) (n : ℕ)
    (f : ℕ → R) : Prop :=
  ∀ i < n, ∀ Q : Unit → Multiset (ℕ × List (Cell R)) → Prop, Q () (W (i + 1)) →
    Runs sure (setCell out i (.number (f i))) (W i) Q

theorem Writes.mono {m : ℕ} (h : Writes sure W out n f) (hmn : m ≤ n) : Writes sure W out m f :=
  fun i hi => h i (Nat.lt_of_lt_of_le hi hmn)

/-- **The loops of an element-wise function**, with AVX and without: when the lanes have the values
of the elements, both write the same. -/
theorem runs_elementwise (avx : Bool) {lanes : ℕ → Effect R (Lanes R)} {one : ℕ → Effect R R}
    (hout : Writes sure W out n f)
    (hlanes : ∀ i, i + 4 ≤ n → ∀ Q : Lanes R → Multiset (ℕ × List (Cell R)) → Prop,
      Q ⟨f i, f (i + 1), f (i + 2), f (i + 3)⟩ (W i) → Runs sure (lanes i) (W i) Q)
    (hone : ∀ i < n, ∀ Q : R → Multiset (ℕ × List (Cell R)) → Prop, Q (f i) (W i) →
      Runs sure (one i) (W i) Q)
    (hs : s = W 0) {Q : Unit → Multiset (ℕ × List (Cell R)) → Prop} (hQ : Q () (W n)) :
    Runs sure (elementwise avx n lanes one out) s Q := by
  subst hs
  have hrest : ∀ i ≤ n, Runs sure
      (do
        let _ ← strides 1 n (fun i _ => do setCell out i (.number (← one i))) (n + 1) i ()
        pure ()) (W i) Q := by
    intro i hi
    refine runs_bind (runs_strides (fun i _ s => s = W i) Nat.one_pos ?_ (by omega) hi rfl ?_)
    · rintro i ⟨⟩ _ hin rfl
      exact runs_bind (hone i hin _ (hout i hin _ rfl))
    · rintro i ⟨⟩ _ hin hend rfl
      obtain rfl : i = n := by omega
      exact runs_pure hQ
  rw [elementwise]
  cases avx with
  | false => exact hrest 0 (Nat.zero_le n)
  | true =>
    refine runs_bind (runs_strides (fun i _ s => s = W i) (by omega) ?_ (by omega) (Nat.zero_le n)
      rfl ?_)
    · rintro i ⟨⟩ _ hin rfl
      refine runs_bind (hlanes i hin _ ?_)
      refine runs_bind (hout i (by omega) _ ?_)
      refine runs_bind (hout (i + 1) (by omega) _ ?_)
      refine runs_bind (hout (i + 2) (by omega) _ ?_)
      exact hout (i + 3) (by omega) _ rfl
    · rintro i ⟨⟩ _ hin - rfl
      exact hrest i hin

/-- The loops that combine two arrays. -/
theorem runs_pointwise (avx : Bool) (op : R → R → R) {a b : Option Pointer} {x y : ℕ → R}
    (hout : Writes sure W out n fun i => op (x i) (y i))
    (ha : ∀ i ≤ n, Reads sure (W i) a n x) (hb : ∀ i ≤ n, Reads sure (W i) b n y)
    (hs : s = W 0) {Q : Unit → Multiset (ℕ × List (Cell R)) → Prop} (hQ : Q () (W n)) :
    Runs sure (pointwise avx op n a b out) s Q := by
  refine runs_elementwise avx hout (fun i hi Q hQ => ?_) (fun i hi Q hQ => ?_) hs hQ
  · refine runs_bind (runs_loaduPd (ha i (by omega)) hi ?_)
    exact runs_bind (runs_loaduPd (hb i (by omega)) hi (runs_pure hQ))
  · refine runs_bind (ha i (Nat.le_of_lt hi) i hi _ ?_)
    exact runs_bind (hb i (Nat.le_of_lt hi) i hi _ (runs_pure hQ))

/-- `memcpy`. -/
theorem runs_memcpy {src : Option Pointer} (hout : Writes sure W out n f)
    (hsrc : ∀ i ≤ n, Copies sure (W i) src n f) (hs : s = W 0)
    {Q : Unit → Multiset (ℕ × List (Cell R)) → Prop} (hQ : Q () (W n)) :
    Runs sure (memcpy out src n) s Q := by
  subst hs
  refine runs_forRange (fun i _ s => s = W i) ?_ rfl ?_
  · rintro i ⟨⟩ _ hi rfl
    exact runs_bind (hsrc i (Nat.le_of_lt hi) i hi _ (hout i hi _ rfl))
  · rintro ⟨⟩ _ rfl
    exact hQ

end

end Storage

end Matrix

end OvaLib
