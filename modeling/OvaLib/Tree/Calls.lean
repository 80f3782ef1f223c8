import OvaLib.Foundation.Comparator
import OvaLib.Foundation.FiniteMap

/-!
# The calls of a tree

Both kinds of tree answer the same calls, and both implement the finite map from classes of
equivalent keys to values that the same calls build.
-/

namespace OvaLib

namespace Tree

open Foundation

variable {κ υ : Type*} {cmp : κ → κ → ℤ}

/-- An address. -/
abbrev Addr := ℕ

/-- A call with a non-`NULL` key. -/
inductive Call (κ υ : Type*)
  | insert (key : κ) (value : Option υ)
  | delete (key : κ)

/-- The finite map a tree stands for. The inner `Option` is the `void *` value. -/
abbrev KeyMap (h : IsComparator cmp) (υ : Type*) := h.KeyClass → Option (Option υ)

open Classical in
/-- What a call does to the finite map. -/
noncomputable def mapStep (h : IsComparator cmp) (M : KeyMap h υ) : Call κ υ → KeyMap h υ
  | .insert key value => Function.update M (h.keyClass key) (some value)
  | .delete key => Function.update M (h.keyClass key) none

end Tree

end OvaLib
