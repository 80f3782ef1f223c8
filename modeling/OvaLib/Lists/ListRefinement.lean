import OvaLib.Lists.ArrayList
import OvaLib.Lists.LinkedListInvariant

/-!
# Both lists are sequences

A run of calls on an array list, on a linked list and on a mathematical sequence. The two lists
return what the sequence returns as long as it has at most `INT_MAX` items; the array list counts
its slots with an `int` and refuses to grow beyond that.

## The abstract sequence

A list of items, with insertion at an index, removal and reading. A call out of range is refused and
changes nothing. `ListCall.OutOfRange` says which calls these are; both lists agree about them, down
to the code they return, and every other call succeeds.

## How the proof goes

One step lemma for each list. For the array list the relation is that the items in the slots are the
sequence. For the linked list it is `Describes`, with some nodes. The run lemma is an induction on
the calls with both relations as its hypothesis, and `Fits` is taken apart along the way: the bound
is on the sequence in every state of the run.

What the nodes of a linked list look like to a reader of the fields is shown of every state as well:
`Shows` follows the links in both directions and looks at the ends, the count and the cursor.

## Scope

With allocations succeeding and an initial capacity above zero. Beyond `INT_MAX` items the two lists
part; that they do is shown with one list of `INT_MAX` items and one more insertion.

## Main results

* `LinkedList.Describes.shows` — forwards, backwards, at the ends and at the cursor, the linked
  list is the sequence
* `ArrayList.step_refines`, `LinkedList.step_refines` — one call
* `lists_refine_sequence` — every run within `INT_MAX` items
* `lists_disagree_beyond_intMax` — one more item
-/

namespace OvaLib

open Foundation (IsSegment Follows)

/-- The operations of a list. An item is a `void *`. -/
inductive ListCall (α : Type*)
  | insert (item : Option α) (index : ℤ)
  | get (index : ℤ)
  | remove (index : ℤ)
  | size
  | clear

/-- What a call of a list returns. -/
inductive ListResult (α : Type*)
  | code (e : ErrorCode)
  | item (p : Option α)
  | count (n : ℤ)
  | cleared

variable {α : Type*}

/-! ## The sequence

What both lists are compared with. -/

namespace Sequence

/-- A call of a mathematical sequence. -/
def step (s : List (Option α)) : ListCall α → ListResult α × List (Option α)
  | .insert item index =>
    if 0 ≤ index ∧ index ≤ s.length then (.code .success, s.insertIdx index.toNat item)
    else (.code .errorIndexOutOfBounds, s)
  | .get index =>
    if 0 ≤ index ∧ index < s.length then (.item s[index.toNat]?.join, s) else (.item none, s)
  | .remove index =>
    if 0 ≤ index ∧ index < s.length then (.code .success, s.eraseIdx index.toNat)
    else (.code .errorIndexOutOfBounds, s)
  | .size => (.count s.length, s)
  | .clear => (.cleared, [])

/-- A run, with what the calls return. -/
def run (s : List (Option α)) : List (ListCall α) → List (ListResult α) × List (Option α)
  | [] => ([], s)
  | c :: calls => ((step s c).1 :: (run (step s c).2 calls).1, (run (step s c).2 calls).2)

/-- All along the run there are at most `INT_MAX` items. -/
def Fits (s : List (Option α)) (calls : List (ListCall α)) : Prop :=
  ∀ before, before <+: calls → (run s before).2.length ≤ intMax

end Sequence

/-! ## The two lists -/

namespace ArrayList

/-- A call of an array list. -/
def step (l : ArrayList (Option α)) (a : Allocator) :
    ListCall α → ListResult α × ArrayList (Option α) × Allocator
  | .insert item index =>
    let (e, l, a) := l.insert item index a
    (.code e, l, a)
  | .get index => (.item (l.get index).join, l, a)
  | .remove index =>
    let (e, l) := l.remove index
    (.code e, l, a)
  | .size => (.count l.size, l, a)
  | .clear => (.cleared, l.clear, a)

/-- A run, with what the calls return. -/
def run (l : ArrayList (Option α)) (a : Allocator) :
    List (ListCall α) → List (ListResult α) × ArrayList (Option α) × Allocator
  | [] => ([], l, a)
  | c :: calls =>
    let (r, l, a) := l.step a c
    let (rs, l, a) := run l a calls
    (r :: rs, l, a)

end ArrayList

namespace LinkedList

/-- A call of a linked list. -/
def step (l : LinkedList α) (a : Allocator) :
    ListCall α → Option (ListResult α × LinkedList α × Allocator)
  | .insert item index => (l.insert item index a).map fun (e, l, a) => (.code e, l, a)
  | .get index =>
    let (item, l) := l.get index
    some (.item item, l, a)
  | .remove index =>
    let (e, l) := l.remove index
    some (.code e, l, a)
  | .size => some (.count l.size, l, a)
  | .clear => some (.cleared, l.clear, a)

/-- A run, with what the calls return. -/
def run (l : LinkedList α) (a : Allocator) :
    List (ListCall α) → Option (List (ListResult α) × LinkedList α × Allocator)
  | [] => some ([], l, a)
  | c :: calls => do
    let (r, l, a) ← l.step a c
    let (rs, l, a) ← run l a calls
    return (r :: rs, l, a)

/-- **What a reader of the fields sees**: the nodes forwards from the head and backwards from the
tail, their payloads, the count, and a cursor at the position it claims, if there is one. -/
structure Shows (l : LinkedList α) (nodes : List ℕ) (items : List (Option α)) : Prop where
  forwards : Follows l.next l.head nodes
  backwards : Follows l.prev l.tail nodes.reverse
  payloads : nodes.map l.data = items
  head_eq : l.head = nodes.head?
  tail_eq : l.tail = nodes.getLast?
  size_eq : l.size = items.length
  cursor : (l.cursorNode = none ∧ l.cursorIndex = -1) ∨
    ∃ i : ℕ, i < nodes.length ∧ l.cursorIndex = i ∧ l.cursorNode = nodes[i]?

theorem Describes.shows {l : LinkedList α} {nodes : List ℕ} {items : List (Option α)}
    (h : Describes l nodes items) : Shows l nodes items where
  forwards := by
    rw [h.head_eq]
    exact h.segment.follows_next
  backwards := by
    rw [h.tail_eq]
    exact h.segment.follows_prev
  payloads := h.data_eq
  head_eq := h.head_eq
  tail_eq := h.tail_eq
  size_eq := h.size_eq
  cursor := h.cursor

end LinkedList

/-! ## Calls out of range

A call that is refused returns a code or `NULL`, depending on what the method returns. -/

/-- The indices from which a call of a list of `n` items returns. -/
def ListCall.OutOfRange (n : ℕ) : ListCall α → Prop
  | .insert _ index => index < 0 ∨ n < index
  | .get index => index < 0 ∨ n ≤ index
  | .remove index => index < 0 ∨ n ≤ index
  | .size => False
  | .clear => False

/-- What a call out of range returns. -/
def ListCall.refusal : ListCall α → ListResult α
  | .get _ => .item none
  | _ => .code .errorIndexOutOfBounds

theorem ArrayList.step_outOfRange {l : ArrayList (Option α)} {c : ListCall α}
    (h : c.OutOfRange l.items.length) (a : Allocator) : l.step a c = (c.refusal, l, a) := by
  cases c with
  | insert item index =>
    have hout : index < 0 ∨ index > l.items.length := h
    rw [step, ArrayList.insert, if_pos hout]
    rfl
  | get index =>
    have hout : index < 0 ∨ index ≥ l.items.length := h
    rw [step, ArrayList.get, if_pos hout]
    rfl
  | remove index =>
    have hout : index < 0 ∨ index ≥ l.items.length := h
    rw [step, ArrayList.remove, if_pos hout]
    rfl
  | size => exact h.elim
  | clear => exact h.elim

theorem LinkedList.step_outOfRange {l : LinkedList α} {n : ℕ} (hn : l.size = n) {c : ListCall α}
    (h : c.OutOfRange n) (a : Allocator) : l.step a c = some (c.refusal, l, a) := by
  cases c with
  | insert item index =>
    have hout : index < 0 ∨ index > l.size := hn ▸ h
    rw [step, LinkedList.insert, if_pos hout]
    rfl
  | get index =>
    have hout : index < 0 ∨ index ≥ l.size := hn ▸ h
    rw [step, LinkedList.get, if_pos hout]
    rfl
  | remove index =>
    have hout : index < 0 ∨ index ≥ l.size := hn ▸ h
    rw [step, LinkedList.remove, if_pos hout]
    rfl
  | size => exact h.elim
  | clear => exact h.elim

theorem Sequence.step_outOfRange {s : List (Option α)} {c : ListCall α}
    (h : c.OutOfRange s.length) : step s c = (c.refusal, s) := by
  cases c with
  | insert item index =>
    have hout : index < 0 ∨ (s.length : ℤ) < index := h
    rw [step, if_neg (by omega)]
    rfl
  | get index =>
    have hout : index < 0 ∨ (s.length : ℤ) ≤ index := h
    rw [step, if_neg (by omega)]
    rfl
  | remove index =>
    have hout : index < 0 ∨ (s.length : ℤ) ≤ index := h
    rw [step, if_neg (by omega)]
    rfl
  | size => exact h.elim
  | clear => exact h.elim

/-! ## One call -/

/-- The items are stored by an array list with room to grow. -/
structure ArrayList.Holds (l : ArrayList (Option α)) (s : List (Option α)) : Prop where
  items_eq : l.items = s
  capacity_pos : 0 < l.capacity

/-- **One call of the array list** is a call of the sequence. -/
theorem ArrayList.step_refines {l : ArrayList (Option α)} {s : List (Option α)} (h : l.Holds s)
    (c : ListCall α) (hfits : (Sequence.step s c).2.length ≤ intMax) :
    ∃ l', l.step Allocator.always c = ((Sequence.step s c).1, l', Allocator.always) ∧
      l'.Holds (Sequence.step s c).2 := by
  obtain ⟨rfl, hpos⟩ := h
  by_cases hout : c.OutOfRange l.items.length
  · rw [step_outOfRange hout, Sequence.step_outOfRange hout]
    exact ⟨l, rfl, rfl, hpos⟩
  cases c with
  | insert item index =>
    have hrange : 0 ≤ index ∧ index ≤ l.items.length := by
      have hin : ¬ (index < 0 ∨ (l.items.length : ℤ) < index) := hout
      omega
    rw [Sequence.step, if_pos hrange] at hfits ⊢
    have hlt : l.items.length < intMax := by
      have hlen := List.length_insertIdx_of_le_length (show index.toNat ≤ l.items.length by omega)
        item
      dsimp only at hfits
      omega
    obtain ⟨l', hinsert, hitems, hpos'⟩ :=
      ArrayList.insert_always hpos hlt item hrange.1 hrange.2
    refine ⟨l', ?_, hitems, hpos'⟩
    rw [step, hinsert]
  | get index =>
    have hrange : 0 ≤ index ∧ index < l.items.length := by
      have hin : ¬ (index < 0 ∨ (l.items.length : ℤ) ≤ index) := hout
      omega
    rw [Sequence.step, if_pos hrange, step, ArrayList.get, if_neg (by omega)]
    exact ⟨l, rfl, rfl, hpos⟩
  | remove index =>
    have hrange : 0 ≤ index ∧ index < l.items.length := by
      have hin : ¬ (index < 0 ∨ (l.items.length : ℤ) ≤ index) := hout
      omega
    rw [Sequence.step, if_pos hrange, step, ArrayList.remove, if_neg (by omega)]
    exact ⟨_, rfl, rfl, hpos⟩
  | size => exact ⟨l, rfl, rfl, hpos⟩
  | clear => exact ⟨_, rfl, rfl, hpos⟩

/-- **One call of the linked list** is a call of the sequence. -/
theorem LinkedList.step_refines {l : LinkedList α} {nodes : List ℕ} {s : List (Option α)}
    (h : Describes l nodes s) (c : ListCall α)
    (hfits : (Sequence.step s c).2.length ≤ intMax) :
    ∃ nodes' l', l.step Allocator.always c = some ((Sequence.step s c).1, l', Allocator.always) ∧
      Describes l' nodes' (Sequence.step s c).2 := by
  by_cases hout : c.OutOfRange s.length
  · rw [step_outOfRange h.size_eq hout, Sequence.step_outOfRange hout]
    exact ⟨nodes, l, rfl, h⟩
  cases c with
  | insert item index =>
    have hrange : 0 ≤ index ∧ index ≤ s.length := by
      have hin : ¬ (index < 0 ∨ (s.length : ℤ) < index) := hout
      omega
    rw [Sequence.step, if_pos hrange] at hfits ⊢
    have hlt : s.length < intMax := by
      have hlen := List.length_insertIdx_of_le_length (show index.toNat ≤ s.length by omega) item
      dsimp only at hfits
      omega
    obtain ⟨nodes', l', hinsert, hdesc⟩ := h.insert item hrange.1 hrange.2 hlt
    refine ⟨nodes', l', ?_, hdesc⟩
    rw [step, hinsert]
    rfl
  | get index =>
    have hrange : 0 ≤ index ∧ index < s.length := by
      have hin : ¬ (index < 0 ∨ (s.length : ℤ) ≤ index) := hout
      omega
    obtain ⟨hitem, hdesc⟩ := h.get hrange.1 hrange.2
    rw [Sequence.step, if_pos hrange]
    refine ⟨nodes, _, ?_, hdesc⟩
    rw [step, ← hitem]
  | remove index =>
    have hrange : 0 ≤ index ∧ index < s.length := by
      have hin : ¬ (index < 0 ∨ (s.length : ℤ) ≤ index) := hout
      omega
    obtain ⟨nodes', l', hremove, hdesc⟩ := h.remove hrange.1 hrange.2
    rw [Sequence.step, if_pos hrange]
    refine ⟨nodes', l', ?_, hdesc⟩
    rw [step, hremove]
  | size =>
    refine ⟨nodes, l, ?_, h⟩
    rw [step, h.size_eq]
    rfl
  | clear =>
    refine ⟨[], l.clear, rfl, ?_⟩
    exact ⟨trivial, List.nodup_nil, rfl, rfl, rfl, rfl, by simp, .inl ⟨rfl, rfl⟩⟩

/-! ## Runs -/

namespace Sequence

theorem Fits.head {s : List (Option α)} {c : ListCall α} {calls : List (ListCall α)}
    (h : Fits s (c :: calls)) : (step s c).2.length ≤ intMax :=
  h [c] ⟨calls, rfl⟩

theorem Fits.tail {s : List (Option α)} {c : ListCall α} {calls : List (ListCall α)}
    (h : Fits s (c :: calls)) : Fits (step s c).2 calls := by
  rintro before ⟨after, rfl⟩
  exact h (c :: before) ⟨after, rfl⟩

end Sequence

namespace Sequence

theorem length_step_le (s : List (Option α)) (c : ListCall α) :
    (step s c).2.length ≤ s.length + 1 := by
  cases c with
  | insert item index =>
    rw [step]
    split
    · exact List.length_insertIdx_le_succ
    · exact Nat.le_succ _
  | get index =>
    rw [step]
    split <;> exact Nat.le_succ _
  | remove index =>
    rw [step]
    split
    · exact Nat.le_succ_of_le (List.length_eraseIdx_le _ _)
    · exact Nat.le_succ _
  | size => exact Nat.le_succ _
  | clear => exact Nat.zero_le _

theorem length_run_le (s : List (Option α)) (calls : List (ListCall α)) :
    (run s calls).2.length ≤ s.length + calls.length := by
  induction calls generalizing s with
  | nil => exact Nat.le_refl _
  | cons c calls ih =>
    have hstep := length_step_le s c
    have hrest := ih (step s c).2
    rw [run, List.length_cons]
    dsimp only
    omega

/-- A run that is not too long stays within `INT_MAX` items. -/
theorem fits_of_length_le {s : List (Option α)} {calls : List (ListCall α)}
    (h : s.length + calls.length ≤ intMax) : Fits s calls := by
  intro before hbefore
  have hlen := hbefore.length_le
  have hrun := length_run_le s before
  omega

/-- Insertions at the front all succeed. -/
theorem length_run_replicate (s : List (Option α)) (n : ℕ) :
    (run s (List.replicate n (.insert none 0))).2.length = s.length + n := by
  induction n generalizing s with
  | zero => rfl
  | succ n ih =>
    have hstep : step s (.insert none 0) = (.code .success, none :: s) := by
      rw [step, if_pos ⟨Int.le_refl _, by omega⟩]
      rfl
    rw [List.replicate_succ, run, hstep]
    dsimp only
    rw [ih, List.length_cons]
    omega

theorem run_append (s : List (Option α)) (calls more : List (ListCall α)) :
    run s (calls ++ more) =
      ((run s calls).1 ++ (run (run s calls).2 more).1, (run (run s calls).2 more).2) := by
  induction calls generalizing s with
  | nil => rfl
  | cons c calls ih =>
    rw [List.cons_append, run, run, ih]
    rfl

end Sequence

theorem ArrayList.run_append (l : ArrayList (Option α)) (a : Allocator)
    (calls more : List (ListCall α)) :
    (l.run a (calls ++ more)).1 =
      (l.run a calls).1 ++ ((l.run a calls).2.1.run (l.run a calls).2.2 more).1 := by
  induction calls generalizing l a with
  | nil => rfl
  | cons c calls ih =>
    show (l.step a c).1 :: ((l.step a c).2.1.run (l.step a c).2.2 (calls ++ more)).1 = _
    rw [ih]
    rfl

theorem LinkedList.run_append {l l' : LinkedList α} {a a' : Allocator} {calls : List (ListCall α)}
    {rs : List (ListResult α)} (h : l.run a calls = some (rs, l', a')) (more : List (ListCall α)) :
    l.run a (calls ++ more) = (l'.run a' more).map fun r => (rs ++ r.1, r.2) := by
  induction calls generalizing l a rs with
  | nil =>
    obtain ⟨rfl, rfl, rfl⟩ : [] = rs ∧ l = l' ∧ a = a' := by simpa [run] using h
    rw [List.nil_append]
    cases l.run a more <;> rfl
  | cons c calls ih =>
    rw [run] at h
    obtain ⟨⟨r, l₁, a₁⟩, hstep, h⟩ := Option.bind_eq_some_iff.mp h
    obtain ⟨⟨rs', l₂, a₂⟩, hrun, h⟩ := Option.bind_eq_some_iff.mp h
    obtain ⟨rfl, rfl, rfl⟩ : r :: rs' = rs ∧ l₂ = l' ∧ a₂ = a' := by simpa using h
    rw [List.cons_append, run, hstep]
    dsimp only [Option.bind_eq_bind, Option.bind_some]
    rw [ih hrun]
    cases l₂.run a₂ more <;> rfl

theorem ArrayList.run_refines {calls : List (ListCall α)} {l : ArrayList (Option α)}
    {s : List (Option α)} (h : l.Holds s) (hfits : Sequence.Fits s calls) :
    ∃ l', l.run Allocator.always calls = ((Sequence.run s calls).1, l', Allocator.always) ∧
      l'.Holds (Sequence.run s calls).2 := by
  induction calls generalizing l s with
  | nil => exact ⟨l, rfl, h⟩
  | cons c calls ih =>
    obtain ⟨l₁, hstep, hholds⟩ := step_refines h c hfits.head
    obtain ⟨l₂, hrun, hholds₂⟩ := ih hholds hfits.tail
    refine ⟨l₂, ?_, hholds₂⟩
    rw [run, hstep]
    dsimp only
    rw [hrun]
    rfl

theorem LinkedList.run_refines {calls : List (ListCall α)} {l : LinkedList α} {nodes : List ℕ}
    {s : List (Option α)} (h : Describes l nodes s) (hfits : Sequence.Fits s calls) :
    ∃ nodes' l', l.run Allocator.always calls =
        some ((Sequence.run s calls).1, l', Allocator.always) ∧
      Describes l' nodes' (Sequence.run s calls).2 := by
  induction calls generalizing l nodes s with
  | nil => exact ⟨nodes, l, rfl, h⟩
  | cons c calls ih =>
    obtain ⟨nodes₁, l₁, hstep, hdesc⟩ := step_refines h c hfits.head
    obtain ⟨nodes₂, l₂, hrun, hdesc₂⟩ := ih hdesc hfits.tail
    refine ⟨nodes₂, l₂, ?_, hdesc₂⟩
    rw [run, hstep]
    dsimp only [Option.bind_eq_bind, Option.bind_some]
    rw [hrun]
    rfl

/-- An array list that was just created is the empty sequence. -/
theorem ArrayList.create_holds {initialCapacity : ℤ} (hpos : 1 ≤ initialCapacity)
    (hmax : initialCapacity ≤ intMax) : ∃ l : ArrayList (Option α),
      create initialCapacity Allocator.always = (some l, Allocator.always) ∧ l.Holds [] := by
  refine ⟨_, create_always (by omega) hmax, rfl, ?_⟩
  show 0 < initialCapacity.toNat
  omega

theorem LinkedList.describes_clear (l : LinkedList α) : Describes l.clear [] [] :=
  ⟨trivial, List.nodup_nil, rfl, rfl, rfl, rfl, by simp, .inl ⟨rfl, rfl⟩⟩

/-- A linked list that was just created is the empty sequence. -/
theorem LinkedList.create_describes : ∃ l : LinkedList α,
    create Allocator.always = (some l, Allocator.always) ∧ Describes l [] [] := by
  refine ⟨_, rfl, ?_⟩
  exact ⟨trivial, List.nodup_nil, rfl, rfl, rfl, rfl, by simp, .inl ⟨rfl, rfl⟩⟩

/-- The linked lists that calls build, whichever allocations fail, as long as the count of items
fits in an `int`. -/
inductive LinkedList.Built : LinkedList α → Prop
  | create {a a' : Allocator} {l : LinkedList α} :
      LinkedList.create a = (some l, a') → Built l
  | step {l l' : LinkedList α} {a a' : Allocator} {c : ListCall α} {r : ListResult α} : Built l →
      (∀ item index, c = .insert item index → l.size < intMax) →
      l.step a c = some (r, l', a') → Built l'

/-- One call of a linked list, whatever its allocation does. -/
theorem LinkedList.step_describes {l l' : LinkedList α} {nodes : List ℕ} {s : List (Option α)}
    (h : Describes l nodes s) (hmax : s.length ≤ intMax) {c : ListCall α}
    (hroom : ∀ item index, c = .insert item index → l.size < intMax) {a a' : Allocator}
    {r : ListResult α} (hstep : l.step a c = some (r, l', a')) :
    ∃ nodes' s', Describes l' nodes' s' ∧ s'.length ≤ intMax := by
  by_cases hout : c.OutOfRange s.length
  · rw [step_outOfRange h.size_eq hout] at hstep
    obtain rfl := (Prod.mk.inj (Prod.mk.inj (Option.some.inj hstep)).2).1
    exact ⟨nodes, s, h, hmax⟩
  cases c with
  | insert item index =>
    have hin : ¬ (index < 0 ∨ (s.length : ℤ) < index) := hout
    have hlt := hroom item index rfl
    rw [h.size_eq] at hlt
    rw [step] at hstep
    cases ha : a.outcome 0 with
    | false =>
      rw [h.insert_of_noAlloc item (by omega) (by omega) ha] at hstep
      obtain rfl := (Prod.mk.inj (Prod.mk.inj (Option.some.inj hstep)).2).1
      exact ⟨nodes, s, h, hmax⟩
    | true =>
      obtain ⟨nodes', m, hinsert, hdesc⟩ :=
        h.insert_of_alloc item (show 0 ≤ index by omega) (by omega) (by omega) ha
      rw [hinsert] at hstep
      obtain rfl := (Prod.mk.inj (Prod.mk.inj (Option.some.inj hstep)).2).1
      exact ⟨nodes', _, hdesc, List.length_insertIdx_le_succ.trans (by omega)⟩
  | get index =>
    have hin : ¬ (index < 0 ∨ (s.length : ℤ) ≤ index) := hout
    obtain rfl := (Prod.mk.inj (Prod.mk.inj (Option.some.inj hstep)).2).1
    exact ⟨nodes, s, (h.get (by omega) (by omega)).2, hmax⟩
  | remove index =>
    have hin : ¬ (index < 0 ∨ (s.length : ℤ) ≤ index) := hout
    obtain ⟨nodes', m, hremove, hdesc⟩ := h.remove (show 0 ≤ index by omega) (by omega)
    rw [step, hremove] at hstep
    obtain rfl := (Prod.mk.inj (Prod.mk.inj (Option.some.inj hstep)).2).1
    exact ⟨nodes', _, hdesc, (List.length_eraseIdx_le _ _).trans hmax⟩
  | size =>
    obtain rfl := (Prod.mk.inj (Prod.mk.inj (Option.some.inj hstep)).2).1
    exact ⟨nodes, s, h, hmax⟩
  | clear =>
    obtain rfl := (Prod.mk.inj (Prod.mk.inj (Option.some.inj hstep)).2).1
    exact ⟨[], [], describes_clear l, Nat.zero_le _⟩

/-- **A linked list that calls built** describes a sequence. -/
theorem LinkedList.Built.describes {l : LinkedList α} (h : l.Built) :
    ∃ nodes s, Describes l nodes s ∧ s.length ≤ intMax := by
  induction h with
  | create hcreate =>
    rw [LinkedList.create] at hcreate
    dsimp only at hcreate
    split at hcreate
    · obtain rfl := Option.some.inj (Prod.mk.inj hcreate).1
      exact ⟨[], [], ⟨trivial, List.nodup_nil, rfl, rfl, rfl, rfl, by simp, .inl ⟨rfl, rfl⟩⟩,
        Nat.zero_le _⟩
    · exact absurd (Prod.mk.inj hcreate).1 (by simp)
  | step _ hroom hstep ih =>
    obtain ⟨nodes, s, hdesc, hmax⟩ := ih
    exact step_describes hdesc hmax hroom hstep

/-- With `INT_MAX` items, an array list has no slot left and gets no more. -/
theorem ArrayList.insert_full {l : ArrayList (Option α)} (hfull : l.items.length = intMax)
    (item : Option α) {index : ℤ} (hlow : 0 ≤ index) (hhigh : index ≤ intMax) (a : Allocator) :
    l.step a (.insert item index) = (.code .errorMemory, l, a) := by
  have hsize := l.size_le
  have hcap := l.capacity_le
  have hdouble : safeDoubleCapacity l.capacity = l.capacity := by
    rw [safeDoubleCapacity]
    rw [intMax] at *
    split <;> omega
  rw [step, ArrayList.insert, if_neg (by omega), ensureCapacity, dif_pos (by omega),
    dif_pos hdouble]

/-- An insertion at the front of a linked list succeeds. -/
theorem LinkedList.insert_front {l : LinkedList α} (hsize : 0 ≤ l.size) (item : Option α) :
    ∃ l', l.step Allocator.always (.insert item 0) =
      some (.code .success, l', Allocator.always) := by
  rw [step, LinkedList.insert, if_neg (by omega)]
  dsimp only [Allocator.alloc_always]
  rw [if_pos rfl]
  exact ⟨_, rfl⟩

/-- **Both lists are the sequence**, in every run that stays within `INT_MAX` items: the calls
return what the sequence returns, the lists hold what the sequence holds, the fields of the linked
list show it, and calls out of range change nothing. An array list of `INT_MAX` items is full. -/
theorem lists_refine_sequence {initialCapacity : ℤ} (hpos : 1 ≤ initialCapacity)
    (hmax : initialCapacity ≤ intMax) {calls : List (ListCall α)}
    (hfits : Sequence.Fits [] calls) :
    ∃ (al₀ al : ArrayList (Option α)) (ll₀ ll : LinkedList α) (nodes : List ℕ),
      ArrayList.create initialCapacity Allocator.always = (some al₀, Allocator.always) ∧
      LinkedList.create Allocator.always = (some ll₀, Allocator.always) ∧
      al₀.run Allocator.always calls = ((Sequence.run [] calls).1, al, Allocator.always) ∧
      ll₀.run Allocator.always calls = some ((Sequence.run [] calls).1, ll, Allocator.always) ∧
      al.items = (Sequence.run [] calls).2 ∧ ll.Shows nodes (Sequence.run [] calls).2 ∧
      (∀ c : ListCall α, c.OutOfRange (Sequence.run [] calls).2.length → ∀ a,
        Sequence.step (Sequence.run [] calls).2 c = (c.refusal, (Sequence.run [] calls).2) ∧
        al.step a c = (c.refusal, al, a) ∧ ll.step a c = some (c.refusal, ll, a)) ∧
      ((Sequence.run [] calls).2.length = intMax → ∀ item (index : ℤ), 0 ≤ index → index ≤ intMax →
        ∀ a, al.step a (.insert item index) = (.code .errorMemory, al, a)) := by
  obtain ⟨al₀, hal₀, hholds⟩ := ArrayList.create_holds (α := α) hpos hmax
  obtain ⟨al, hal, hitems, -⟩ := ArrayList.run_refines hholds hfits
  obtain ⟨ll₀, hcreate, hempty⟩ := LinkedList.create_describes (α := α)
  obtain ⟨nodes, ll, hll, hdesc⟩ := LinkedList.run_refines hempty hfits
  refine ⟨al₀, al, ll₀, ll, nodes, hal₀, hcreate, hal, hll, hitems, hdesc.shows,
    fun c hout a => ⟨Sequence.step_outOfRange hout, ?_, ?_⟩, ?_⟩
  · exact ArrayList.step_outOfRange (hitems ▸ hout) a
  · exact LinkedList.step_outOfRange hdesc.size_eq hout a
  · intro hfull item index hlow hhigh a
    exact ArrayList.insert_full (hitems ▸ hfull) item hlow hhigh a

/-- A run that inserts, reads twice, removes beyond the end and clears. -/
theorem lists_refine_sequence_short :
    ∃ (al₀ al : ArrayList (Option Bool)) (ll₀ ll : LinkedList Bool),
      ArrayList.create 1 Allocator.always = (some al₀, Allocator.always) ∧
      LinkedList.create Allocator.always = (some ll₀, Allocator.always) ∧
      al₀.run Allocator.always
          [.insert (some true) 0, .insert none 1, .get 0, .get 1, .remove 7, .clear] =
        ([.code .success, .code .success, .item (some true), .item none,
          .code .errorIndexOutOfBounds, .cleared], al, Allocator.always) ∧
      ll₀.run Allocator.always
          [.insert (some true) 0, .insert none 1, .get 0, .get 1, .remove 7, .clear] =
        some ([.code .success, .code .success, .item (some true), .item none,
          .code .errorIndexOutOfBounds, .cleared], ll, Allocator.always) := by
  have hfits : Sequence.Fits [] [.insert (some true) 0, .insert none 1, .get 0, .get 1, .remove 7,
      .clear] := Sequence.fits_of_length_le (by decide)
  obtain ⟨al₀, al, ll₀, ll, -, hal₀, hll₀, hal, hll, -⟩ :=
    lists_refine_sequence (Int.le_refl 1) (by decide) hfits
  exact ⟨al₀, al, ll₀, ll, hal₀, hll₀, hal, hll⟩

/-- After `n` insertions at the front, `n` being `INT_MAX`, the lists part. -/
theorem lists_disagree_of_full {n : ℕ} (hn : n = intMax) :
    ∃ (al₀ : ArrayList (Option α)) (ll₀ ll : LinkedList α),
      ArrayList.create 1 Allocator.always = (some al₀, Allocator.always) ∧
      LinkedList.create Allocator.always = (some ll₀, Allocator.always) ∧
      ll₀.run Allocator.always (List.replicate (n + 1) (.insert none 0)) =
        some ((Sequence.run [] (List.replicate (n + 1) (.insert none 0))).1, ll,
          Allocator.always) ∧
      (al₀.run Allocator.always (List.replicate (n + 1) (.insert none 0))).1 ≠
        (Sequence.run [] (List.replicate (n + 1) (.insert none 0))).1 := by
  have hfits : Sequence.Fits [] (List.replicate n (ListCall.insert (none : Option α) 0)) :=
    Sequence.fits_of_length_le (by rw [List.length_replicate, List.length_nil]; omega)
  have hfull := Sequence.length_run_replicate ([] : List (Option α)) n
  rw [List.length_nil, Nat.zero_add] at hfull
  obtain ⟨al₀, hal₀, hholds⟩ := ArrayList.create_holds (α := α) (Int.le_refl 1) (by decide)
  obtain ⟨al, hal, hitems, -⟩ := ArrayList.run_refines hholds hfits
  obtain ⟨ll₀, hcreate, hempty⟩ := LinkedList.create_describes (α := α)
  obtain ⟨nodes, ll, hll, hdesc⟩ := LinkedList.run_refines hempty hfits
  have hsize : 0 ≤ ll.size := by
    rw [hdesc.size_eq]
    omega
  obtain ⟨ll', hlast⟩ := LinkedList.insert_front hsize none
  have hseq := Sequence.run_append [] (List.replicate n (.insert (none : Option α) 0))
    [.insert none 0]
  have hinsert : ∀ s : List (Option α), (Sequence.run s [.insert none 0]).1 = [.code .success] := by
    intro s
    rw [Sequence.run, Sequence.step, if_pos ⟨Int.le_refl _, by omega⟩]
    rfl
  rw [hinsert] at hseq
  rw [List.replicate_succ', hseq]
  refine ⟨al₀, ll₀, ll', hal₀, hcreate, ?_, ?_⟩
  · rw [LinkedList.run_append hll, LinkedList.run, hlast]
    rfl
  · have hlen : al.items.length = intMax := by rw [hitems, hfull, hn]
    have hrefused := ArrayList.insert_full hlen none (Int.le_refl 0) (by omega) Allocator.always
    rw [ArrayList.run_append, hal]
    dsimp only
    rw [ArrayList.run, hrefused]
    intro heq
    have hcode := List.append_cancel_left heq
    exact absurd hcode (by simp [ArrayList.run])

/-- **One item more than `INT_MAX`**: the linked list takes it, as the sequence does, and the array
list refuses it. -/
theorem lists_disagree_beyond_intMax :
    ∃ (calls : List (ListCall Unit)) (al₀ : ArrayList (Option Unit)) (ll₀ ll : LinkedList Unit),
      calls = List.replicate (intMax + 1) (.insert none 0) ∧
      ArrayList.create 1 Allocator.always = (some al₀, Allocator.always) ∧
      LinkedList.create Allocator.always = (some ll₀, Allocator.always) ∧
      ll₀.run Allocator.always calls = some ((Sequence.run [] calls).1, ll, Allocator.always) ∧
      (al₀.run Allocator.always calls).1 ≠ (Sequence.run [] calls).1 := by
  obtain ⟨al₀, ll₀, ll, hal₀, hll₀, hll, hne⟩ := lists_disagree_of_full (α := Unit) (Eq.refl intMax)
  exact ⟨_, al₀, ll₀, ll, Eq.refl _, hal₀, hll₀, hll, hne⟩

end OvaLib
