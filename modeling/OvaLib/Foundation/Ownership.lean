import Mathlib.Data.Finset.Dedup
import Mathlib.Data.Finset.Basic
import Mathlib.Data.List.Nodup
import OvaLib.Foundation.Segment

/-!
# Blocks that are held

A program that allocates holds a set of blocks. To free a block takes it out of the set, and has no
outcome for a block that is not in it; nor has reading one. So a program with an outcome frees
nothing twice and reads nothing that it has freed, and one that ends with the empty set leaks
nothing.

A destructor *consumes* the blocks of a structure: wherever these are held, it ends, and holds all
but them. It touches no other block, since it may hold none. Destructors are put together by the
rules for `Consumes`, in the order in which the program frees.

The contents of the blocks are no part of this. A structure is followed by which blocks it has, and
a program that reads a block says so by `reading`; it is for the model of a program to read what it
reads. Where contents matter, a heap of blocks with cells is the better description.

## Main results

* `Consumes.andThen`, `Consumes.reading`, `consumes_release` — the rules
* `consumes_freeChain` — freeing the nodes of a linked list
* `release_of_mem` — one block that is held
-/

namespace Foundation

variable {α β : Type*} [DecidableEq β]

/-- A program that frees blocks, from those it holds to those it still holds. -/
abbrev Freeing (β : Type*) := Finset β → Option (Finset β)

/-- `free`. -/
def release (b : β) : Freeing β := fun held => if b ∈ held then some (held.erase b) else none

/-- A field of a block is read, on which the rest depends. -/
def reading (b : β) (p : Freeing β) : Freeing β := fun held => if b ∈ held then p held else none

/-- One program after another. -/
def andThen (p q : Freeing β) : Freeing β := fun held => (p held).bind q

omit [DecidableEq β] in
theorem andThen_assoc (p q r : Freeing β) :
    andThen (andThen p q) r = andThen p (andThen q r) := by
  funext held
  exact Option.bind_assoc _ _ _

/-- **The program frees the given blocks**, each of them once, and touches no others. -/
def Consumes (p : Freeing β) (l : List β) : Prop :=
  ∀ held, l.Nodup → (∀ b ∈ l, b ∈ held) → p held = some (held \ l.toFinset)

variable {p q : Freeing β} {l l' : List β} {b : β}

/-! ## The rules -/

theorem consumes_skip : Consumes (some : Freeing β) [] := by
  intro held _ _
  rw [List.toFinset_nil, Finset.sdiff_empty]

theorem consumes_release (b : β) : Consumes (release b) [b] := by
  intro held _ hmem
  have hb : b ∈ held := hmem b (List.mem_singleton_self b)
  rw [release, if_pos hb, List.toFinset_cons, List.toFinset_nil, insert_empty_eq,
    Finset.sdiff_singleton_eq_erase]

/-- **Sequential composition**: the second program finds its blocks untouched. -/
theorem Consumes.andThen (hp : Consumes p l) (hq : Consumes q l') :
    Consumes (andThen p q) (l ++ l') := by
  intro held hnodup hmem
  obtain ⟨hl, hl', hdisjoint⟩ := List.nodup_append'.mp hnodup
  have hfirst := hp held hl fun b hb => hmem b (List.mem_append_left _ hb)
  have hkept : ∀ b ∈ l', b ∈ held \ l.toFinset := by
    intro b hb
    refine Finset.mem_sdiff.mpr ⟨hmem b (List.mem_append_right _ hb), ?_⟩
    rw [List.mem_toFinset]
    exact fun hbl => hdisjoint hbl hb
  rw [Foundation.andThen, hfirst, Option.bind_some, hq _ hl' hkept]
  congr 1
  ext b
  simp only [Finset.mem_sdiff, List.mem_toFinset, List.mem_append, not_or, and_assoc]

/-- A block may be read before it is freed. -/
theorem Consumes.reading (hp : Consumes p l) (hb : b ∈ l) : Consumes (reading b p) l := by
  intro held hnodup hmem
  rw [Foundation.reading, if_pos (hmem b hb)]
  exact hp held hnodup hmem

/-- The order in which the blocks are listed does not matter. -/
theorem Consumes.perm (hp : Consumes p l) (hperm : l.Perm l') : Consumes p l' := by
  intro held hnodup hmem
  rw [hp held (hperm.nodup_iff.mpr hnodup) fun b hb => hmem b (hperm.mem_iff.mp hb),
    List.toFinset_eq_of_perm _ _ hperm]

theorem release_of_mem {held : Finset β} (hb : b ∈ held) : release b held = some (held.erase b) :=
  if_pos hb

/-! ## Linked lists -/

/-- `while (node) { next = node->next; free(node); node = next; }` -/
def freeChain (block : α → β) (next : α → Option α) : ℕ → Option α → Freeing β
  | 0, _ => fun _ => none
  | _ + 1, none => some
  | fuel + 1, some a =>
    reading (block a)
      (Foundation.andThen (release (block a)) (freeChain block next fuel (next a)))

/-- **The nodes of a linked list are freed.** -/
theorem consumes_freeChain (block : α → β) {next : α → Option α} {fuel : ℕ} {o : Option α}
    {nodes : List α} (h : Follows next o nodes) (hfuel : nodes.length < fuel) :
    Consumes (freeChain block next fuel o) (nodes.map block) := by
  induction nodes generalizing fuel o with
  | nil =>
    obtain ⟨fuel, rfl⟩ : ∃ k, fuel = k + 1 := ⟨fuel - 1, by omega⟩
    have ho : o = none := h
    rw [ho]
    exact consumes_skip
  | cons a nodes ih =>
    rw [List.length_cons] at hfuel
    obtain ⟨fuel, rfl⟩ : ∃ k, fuel = k + 1 := ⟨fuel - 1, by omega⟩
    obtain ⟨rfl, hrest⟩ := h
    rw [List.map_cons]
    exact ((consumes_release (block a)).andThen (ih hrest (by omega))).reading List.mem_cons_self

end Foundation
