import Mathlib.Data.Finset.Card
import Mathlib.Data.Finset.Image
import Mathlib.Order.Interval.Finset.Nat
import OvaLib.Foundation.Ownership
import OvaLib.Types

/-!
# What a container has allocated

A container is a struct with its methods, the struct that its `impl` points to, and nodes. A
destructor frees the nodes first, then these two.

The containers of the library are alike in this, so what is common to their constructors and
destructors is here. A constructor allocates the two structs, gives back the first when the second
is not to be had, and holds nothing after a failure. Nodes are at addresses that are handed out in
ascending order, so that the nodes allocated by a call are those between two values of a counter. A
container that holds its nodes and the two structs, and whose destructor consumes the nodes, ends
with nothing held.

## Main results

* `allocPair_cases` — a constructor that fails holds nothing
* `allocationsOf_of_consumes` — a program that frees the nodes leaves the two structs
* `release_object` — the end of a destructor
-/

namespace OvaLib

open Foundation

/-- What a container has allocated. Nodes live at addresses. -/
inductive Allocation
  | object
  | impl
  | node (a : ℕ)
  deriving DecidableEq

variable {nodes : Finset ℕ}

/-- The blocks of a container with the given nodes. -/
def allocationsOf (nodes : Finset ℕ) : Finset Allocation :=
  insert .impl (insert .object (nodes.image .node))

theorem mem_allocationsOf {b : Allocation} :
    b ∈ allocationsOf nodes ↔ b = .impl ∨ b = .object ∨ ∃ a ∈ nodes, .node a = b := by
  rw [allocationsOf, Finset.mem_insert, Finset.mem_insert, Finset.mem_image]

theorem node_mem_allocationsOf {a : ℕ} : .node a ∈ allocationsOf nodes ↔ a ∈ nodes := by
  rw [mem_allocationsOf]
  grind

theorem allocationsOf_insert (nodes : Finset ℕ) (a : ℕ) :
    insert (.node a) (allocationsOf nodes) = allocationsOf (insert a nodes) := by
  ext b
  simp only [Finset.mem_insert, mem_allocationsOf, exists_eq_or_imp]
  grind

theorem allocationsOf_erase (nodes : Finset ℕ) (a : ℕ) :
    (allocationsOf nodes).erase (.node a) = allocationsOf (nodes.erase a) := by
  ext b
  simp only [Finset.mem_erase, mem_allocationsOf]
  grind

theorem card_allocationsOf (nodes : Finset ℕ) : (allocationsOf nodes).card = nodes.card + 2 := by
  have himage : (nodes.image Allocation.node).card = nodes.card :=
    Finset.card_image_of_injective _ fun a b hab => Allocation.node.inj hab
  rw [allocationsOf, Finset.card_insert_of_notMem (by simp), Finset.card_insert_of_notMem (by simp),
    himage]

/-- The blocks held once the addresses from `p` up to `p'` have been handed out. -/
def handOut (p p' : ℕ) (held : Finset Allocation) : Finset Allocation :=
  held ∪ (Finset.Ico p p').image .node

theorem handOut_self (p : ℕ) (held : Finset Allocation) : handOut p p held = held := by
  rw [handOut, Finset.Ico_self, Finset.image_empty, Finset.union_empty]

theorem handOut_succ (p : ℕ) (held : Finset Allocation) :
    handOut p (p + 1) held = insert (.node p) held := by
  rw [handOut, Nat.Ico_succ_singleton, Finset.image_singleton, Finset.union_comm,
    Finset.insert_eq]

/-! ## Constructors -/

/-- The beginning of a constructor: two structs are allocated, and the first is freed when the
second is not to be had. The flag says whether both are there. -/
def allocPair (first second : Allocation) (a : Allocator) :
    Bool × Option (Finset Allocation) × Allocator :=
  let (out, a) := a.alloc
  if !out then (false, some ∅, a)
  else
    let (impl, a) := a.alloc
    if !impl then (false, release first {first}, a)
    else (true, some {first, second}, a)

theorem allocPair_cases (first second : Allocation) (a : Allocator) :
    (∃ a', allocPair first second a = (true, some {first, second}, a')) ∨
      ∃ a', allocPair first second a = (false, some ∅, a') := by
  rw [allocPair]
  cases ha : a.alloc.1 with
  | false => exact .inr ⟨a.alloc.2, by simp [ha]⟩
  | true =>
    cases ha' : a.alloc.2.alloc.1 with
    | false => exact .inr ⟨a.alloc.2.alloc.2, by simp [ha, ha', release]⟩
    | true => exact .inl ⟨a.alloc.2.alloc.2, by simp [ha, ha']⟩

theorem object_impl : ({.object, .impl} : Finset Allocation) = allocationsOf ∅ := by decide

/-! ## Nodes in a list -/

theorem node_mem_toFinset {l : List ℕ} {a : ℕ} : .node a ∈ allocationsOf l.toFinset ↔ a ∈ l := by
  rw [node_mem_allocationsOf, List.mem_toFinset]

/-- A node at the next address, or none. -/
theorem handOut_list {l l' : List ℕ} {p p' : ℕ}
    (h : p' = p ∧ l' = l ∨ p' = p + 1 ∧ l'.Perm (p :: l)) :
    handOut p p' (allocationsOf l.toFinset) = allocationsOf l'.toFinset := by
  rcases h with ⟨rfl, rfl⟩ | ⟨rfl, hperm⟩
  · exact handOut_self _ _
  · rw [handOut_succ, allocationsOf_insert, List.toFinset_eq_of_perm _ _ hperm,
      List.toFinset_cons]

/-- A node is freed. -/
theorem release_node {l l' : List ℕ} {z : ℕ} (hperm : l.Perm (z :: l')) (hnodup : l.Nodup) :
    release (.node z) (allocationsOf l.toFinset) = some (allocationsOf l'.toFinset) := by
  have hz : z ∉ l' := (List.nodup_cons.mp (hperm.nodup_iff.mp hnodup)).1
  have hmem : z ∈ l := hperm.mem_iff.mpr List.mem_cons_self
  rw [release_of_mem (node_mem_toFinset.mpr hmem), allocationsOf_erase,
    List.toFinset_eq_of_perm _ _ hperm, List.toFinset_cons, Finset.erase_insert]
  rwa [List.mem_toFinset]

theorem card_allocationsOf_list {l : List ℕ} (hnodup : l.Nodup) :
    (allocationsOf l.toFinset).card = l.length + 2 := by
  rw [card_allocationsOf, List.toFinset_card_of_nodup hnodup]

/-- A program that frees the nodes leaves the two structs. -/
theorem allocationsOf_of_consumes {p : Freeing Allocation} {l : List ℕ}
    (h : Consumes p (l.map .node)) (hnodup : l.Nodup) (hmem : ∀ a, a ∈ l ↔ a ∈ nodes) :
    p (allocationsOf nodes) = some (allocationsOf ∅) := by
  have hinj : (l.map Allocation.node).Nodup :=
    hnodup.map fun a b hab => Allocation.node.inj hab
  have hheld : ∀ b ∈ l.map Allocation.node, b ∈ allocationsOf nodes := by
    intro b hb
    obtain ⟨a, ha, rfl⟩ := List.mem_map.mp hb
    exact node_mem_allocationsOf.mpr ((hmem a).mp ha)
  rw [h _ hinj hheld]
  congr 1
  ext b
  simp only [Finset.mem_sdiff, List.mem_toFinset, List.mem_map, hmem, mem_allocationsOf,
    Finset.notMem_empty, false_and, exists_false]
  grind

/-- The two structs are freed last. -/
theorem release_object : andThen (release .impl) (release .object) (allocationsOf ∅) = some ∅ := by
  decide

end OvaLib
