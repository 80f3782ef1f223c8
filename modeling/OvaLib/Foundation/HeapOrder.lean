import Mathlib.Data.List.Perm.Basic
import OvaLib.Foundation.Comparator

/-!
# Heap order in a list

A list read as a binary tree: the children of the slot `i` are the slots `2 * i + 1` and `2 * i +
2`. It is in heap order when no item compares above the one of its parent slot. A sift moves a hole
along a path of the tree; what it keeps in order are the pairs that do not touch the hole, and what
the moved item is compared with decides when it may be put there.

An implementation with a hole writes each item once and the moved one at the end, so that in between
the list is no permutation of what it was. `OrderedAround` is about the pairs away from the hole and
about the neighbours of the hole among themselves, and says nothing of what the slot of the hole
holds. The two directions add what is known of the moved item: going up, that nothing below the hole
is above it, and going down, that it is not above the slot over the hole.

## Main results

* `HeapOrdered.top` — no item compares above the first
* `UpOrder.move`, `UpOrder.finish` — the hole moves up
* `DownOrder.move`, `DownOrder.finish` — the hole moves down
-/

namespace Foundation

variable {α : Type*} (cmp : α → α → ℤ)

/-- The slot above. -/
def parentSlot (i : ℕ) : ℕ := (i - 1) / 2

/-- The pair of the slot `i` and its parent slot is in order. -/
def InOrder (data : List α) (i : ℕ) : Prop :=
  ∀ x p, data[i]? = some x → data[parentSlot i]? = some p → cmp x p ≤ 0

/-- No item compares above that of its parent slot. -/
def HeapOrdered (data : List α) : Prop := ∀ i, 0 < i → InOrder cmp data i

/-- The pairs that do not touch the hole are in order, and so are the neighbours of the hole among
themselves. -/
structure OrderedAround (data : List α) (hole : ℕ) : Prop where
  except : ∀ i, 0 < i → i ≠ hole → parentSlot i ≠ hole → InOrder cmp data i
  /-- A child slot of the hole and the slot above the hole are in order. -/
  across : 0 < hole → ∀ i, 0 < i → parentSlot i = hole → ∀ x p, data[i]? = some x →
    data[parentSlot hole]? = some p → cmp x p ≤ 0

/-- The item may go into the hole or further up. -/
structure UpOrder (data : List α) (hole : ℕ) (item : α) : Prop extends
    OrderedAround cmp data hole where
  below : ∀ i, 0 < i → parentSlot i = hole → ∀ x, data[i]? = some x → cmp x item ≤ 0

/-- The item may go into the hole or further down. -/
structure DownOrder (data : List α) (hole : ℕ) (item : α) : Prop extends
    OrderedAround cmp data hole where
  above : 0 < hole → ∀ p, data[parentSlot hole]? = some p → cmp item p ≤ 0

variable {cmp} {data : List α} {hole : ℕ} {item : α}

theorem parentSlot_lt {i : ℕ} (h : 0 < i) : parentSlot i < i := by
  rw [parentSlot]
  omega

/-- **No item compares above the first one.** -/
theorem HeapOrdered.top (hcmp : IsComparator cmp) (h : HeapOrdered cmp data) {top : α}
    (htop : data[0]? = some top) {i : ℕ} {x : α} (hx : data[i]? = some x) : cmp x top ≤ 0 := by
  induction i using Nat.strongRecOn generalizing x with
  | ind i ih =>
    rcases Nat.eq_zero_or_pos i with rfl | hpos
    · obtain rfl := Option.some.inj (hx.symm.trans htop)
      exact (hcmp.self x).le
    · have hlt := parentSlot_lt hpos
      have hlen := (List.getElem?_eq_some_iff.mp hx).1
      obtain ⟨p, hp⟩ : ∃ p, data[parentSlot i]? = some p :=
        ⟨_, List.getElem?_eq_getElem (Nat.lt_trans hlt hlen)⟩
      exact hcmp.le_trans (h i hpos x p hx hp) (ih _ hlt hp)

/-- A slot after the hole was filled. -/
theorem getElem?_set_cases {moved : α} {i : ℕ} {x : α}
    (hx : (data.set hole moved)[i]? = some x) :
    (i = hole ∧ x = moved) ∨ (i ≠ hole ∧ data[i]? = some x) := by
  rw [List.getElem?_set] at hx
  split at hx
  · next heq =>
    split at hx
    · exact .inl ⟨heq.symm, (Option.some.inj hx).symm⟩
    · exact absurd hx (by simp)
  · next hne => exact .inr ⟨Ne.symm hne, hx⟩

/-- The item is put into the hole. -/
theorem OrderedAround.finish (h : OrderedAround cmp data hole)
    (habove : 0 < hole → ∀ p, data[parentSlot hole]? = some p → cmp item p ≤ 0)
    (hbelow : ∀ i, 0 < i → parentSlot i = hole → ∀ x, data[i]? = some x → cmp x item ≤ 0) :
    HeapOrdered cmp (data.set hole item) := by
  intro i hpos x p hx hp
  rcases getElem?_set_cases hx with ⟨rfl, rfl⟩ | ⟨hi, hx'⟩
  · have hlt := parentSlot_lt hpos
    obtain ⟨-, hp'⟩ := (getElem?_set_cases hp).resolve_left fun hcase => by omega
    exact habove hpos p hp'
  · rcases getElem?_set_cases hp with ⟨hpar, rfl⟩ | ⟨hpar, hp'⟩
    · exact hbelow i hpos hpar x hx'
    · exact h.except i hpos hi hpar x p hx' hp'

theorem UpOrder.finish (h : UpOrder cmp data hole item)
    (hstop : 0 < hole → ∀ p, data[parentSlot hole]? = some p → cmp item p ≤ 0) :
    HeapOrdered cmp (data.set hole item) :=
  h.toOrderedAround.finish hstop h.below

theorem DownOrder.finish (h : DownOrder cmp data hole item)
    (hstop : ∀ i, 0 < i → parentSlot i = hole → ∀ x, data[i]? = some x → cmp x item ≤ 0) :
    HeapOrdered cmp (data.set hole item) :=
  h.toOrderedAround.finish h.above hstop

/-- **The hole moves up**: the item of its parent slot, which does not compare above the moved one,
goes down. -/
theorem UpOrder.move (hcmp : IsComparator cmp) (h : UpOrder cmp data hole item) (hpos : 0 < hole)
    {p : α} (hp : data[parentSlot hole]? = some p) (hle : cmp p item ≤ 0) :
    UpOrder cmp (data.set hole p) (parentSlot hole) item := by
  have hlt := parentSlot_lt hpos
  have hsibling : ∀ i, 0 < i → i ≠ hole → parentSlot i = parentSlot hole → ∀ x,
      data[i]? = some x → cmp x p ≤ 0 := fun i hi hne hpar x hx =>
    h.except i hi hne (by omega) x p hx (hpar ▸ hp)
  refine ⟨⟨fun i hi hne hpar x q hx hq => ?_, fun hpos' i hi hpar x q hx hq => ?_⟩,
    fun i hi hpar x hx => ?_⟩
  · rcases getElem?_set_cases hx with ⟨rfl, -⟩ | ⟨hi', hx'⟩
    · exact absurd rfl hpar
    · rcases getElem?_set_cases hq with ⟨hq', rfl⟩ | ⟨hq', hq''⟩
      · exact h.across hpos i hi hq' x q hx' hp
      · exact h.except i hi hi' hq' x q hx' hq''
  · have hgrand := parentSlot_lt hpos'
    obtain ⟨-, hq'⟩ := (getElem?_set_cases hq).resolve_left fun hcase => by omega
    have hup : cmp p q ≤ 0 := h.except _ hpos' (by omega) (by omega) p q hp hq'
    rcases getElem?_set_cases hx with ⟨-, rfl⟩ | ⟨hne, hx'⟩
    · exact hup
    · exact hcmp.le_trans (hsibling i hi hne hpar x hx') hup
  · rcases getElem?_set_cases hx with ⟨-, rfl⟩ | ⟨hne, hx'⟩
    · exact hle
    · exact hcmp.le_trans (hsibling i hi hne hpar x hx') hle

/-- **The hole moves down**: the item of a child slot, which no item of a child slot compares above,
goes up. -/
theorem DownOrder.move (h : DownOrder cmp data hole item) {child : ℕ} {c : α}
    (hpos : 0 < child) (hchild : parentSlot child = hole) (hc : data[child]? = some c)
    (hgreatest : ∀ i, 0 < i → parentSlot i = hole → ∀ x, data[i]? = some x → cmp x c ≤ 0)
    (hle : cmp item c ≤ 0) : DownOrder cmp (data.set hole c) child item := by
  have hlt : hole < child := hchild ▸ parentSlot_lt hpos
  refine ⟨⟨fun i hi hne hpar x q hx hq => ?_, fun _ i hi hpar x q hx hq => ?_⟩, fun _ q hq => ?_⟩
  · rcases getElem?_set_cases hx with ⟨rfl, rfl⟩ | ⟨hi', hx'⟩
    · have hup := parentSlot_lt hi
      obtain ⟨-, hq'⟩ := (getElem?_set_cases hq).resolve_left fun hcase => by omega
      exact h.across hi child hpos hchild x q hc hq'
    · rcases getElem?_set_cases hq with ⟨hq', rfl⟩ | ⟨hq', hq''⟩
      · exact hgreatest i hi hq' x hx'
      · exact h.except i hi hi' hq' x q hx' hq''
  · have hdown := parentSlot_lt hi
    obtain ⟨-, hx'⟩ := (getElem?_set_cases hx).resolve_left fun hcase => by omega
    rw [hchild] at hq
    rcases getElem?_set_cases hq with ⟨-, rfl⟩ | ⟨hne, -⟩
    · refine h.except i hi (by omega) (by omega) x q hx' ?_
      rw [hpar]
      exact hc
    · exact absurd rfl hne
  · rw [hchild] at hq
    rcases getElem?_set_cases hq with ⟨-, rfl⟩ | ⟨hne, -⟩
    · exact hle
    · exact absurd rfl hne

end Foundation
