import Mathlib.Data.List.InsertIdx
import OvaLib.Lists.LinkedList

/-!
# The linked list describes a sequence

`Describes l nodes items`: the links of `l` join `nodes` in order, their payloads are `items`, and
the head, the tail, the count and the cursor belong to that sequence. Each operation takes a list
that describes a sequence to one that describes the sequence after the operation.

## How the proof goes

The links are a segment in the sense of the library on doubly linked segments: read forwards by
`next` fields from the head they give the nodes, read backwards by `prev` fields from the tail they
give them in reverse. A walk of so many steps is then an index into the list of nodes. For `get` it
does not matter where a walk starts, since from the head, from the tail and from the cursor it comes
to the same index.

An insertion is a splice between two neighbours, either of which may be missing. The three branches
of the code differ in how they find the place and in which of the ends they have to move; `linked`
says what they have in common. A removal is the splice undone.

## The count

`Describes` has the size right, so it holds up to `INT_MAX` items. The part of it that is left when
the count has wrapped is `Chains`: the nodes still chain the items. It is what a clone and a sorter
can rely on for a list that has grown beyond what it can count.

## Main results

* `seek_spec`, `walkNext_spec`, `walkPrev_spec` — a walk reaches the position it counts to
* `Describes.nodeAt_eq` — from the head, the tail or the cursor, `get` finds the same node
* `Describes.insert`, `Describes.get`, `Describes.remove` — the operations
-/

namespace OvaLib

open Foundation (Pointers IsSegment Follows)

namespace LinkedList

variable {α : Type*} {l : LinkedList α} {nodes : List ℕ} {items : List (Option α)}

/-- **The list describes a sequence**: `nodes` are its nodes and `items` their payloads. -/
structure Describes (l : LinkedList α) (nodes : List ℕ) (items : List (Option α)) : Prop where
  /-- Next and previous fields. -/
  segment : IsSegment l.toPointers none nodes none
  nodup : nodes.Nodup
  data_eq : nodes.map l.data = items
  head_eq : l.head = nodes.head?
  tail_eq : l.tail = nodes.getLast?
  /-- The count has not wrapped. -/
  size_eq : l.size = items.length
  /-- The next address is not in use. -/
  lt_fresh : ∀ a ∈ nodes, a < l.fresh
  /-- The cursor is unset, or it is the node at its index. -/
  cursor : (l.cursorNode = none ∧ l.cursorIndex = -1) ∨
    ∃ i : ℕ, i < nodes.length ∧ l.cursorIndex = i ∧ l.cursorNode = nodes[i]?

namespace Describes

theorem length_eq (h : Describes l nodes items) : nodes.length = items.length := by
  rw [← h.data_eq, List.length_map]

theorem size_eq_length (h : Describes l nodes items) : l.size = nodes.length := by
  rw [h.size_eq, h.length_eq]

theorem tail_eq_getElem (h : Describes l nodes items) : l.tail = nodes[nodes.length - 1]? := by
  rw [h.tail_eq, List.getLast?_eq_getElem?]

theorem head_eq_getElem (h : Describes l nodes items) : l.head = nodes[0]? := by
  rw [h.head_eq, List.head?_eq_getElem?]

end Describes

/-- **The nodes chain the items**, whatever `size` says: past `INT_MAX` insertions the count has
wrapped around, and the links are still those of the sequence. -/
def Chains (l : LinkedList α) (nodes : List ℕ) (items : List (Option α)) : Prop :=
  Describes { l with size := items.length } nodes items

theorem Describes.chains (h : Describes l nodes items) : Chains l nodes items :=
  { h with size_eq := rfl }

theorem Chains.describes (h : Chains l nodes items) (hsize : l.size = items.length) :
    Describes l nodes items := by
  rw [Chains, ← hsize] at h
  exact h

/-! ## Walks -/

section Walks

variable {m : Pointers ℕ} {b e : Option ℕ}

/-- Walking forwards from one position of a list to a later one. -/
theorem walkNext_spec (h : IsSegment m b nodes none) {i : ℕ} {index : ℤ} (n : ℕ)
    (hn : (i : ℤ) + n = index) (hlt : index < nodes.length) :
    walkNext m index nodes[i]? i = (nodes[i + n]?, index) := by
  induction n generalizing i with
  | zero =>
    rw [List.getElem?_eq_getElem (by omega), walkNext]
    simp [← hn]
  | succ n ih =>
    have hi : i < nodes.length := by omega
    rw [List.getElem?_eq_getElem hi, walkNext, if_pos (by omega),
      h.next_getElem (List.getElem?_eq_getElem hi)]
    have hstep := @ih (i + 1) (by omega)
    rw [show ((i + 1 : ℕ) : ℤ) = i + 1 by omega, show i + 1 + n = i + (n + 1) by omega] at hstep
    exact hstep

/-- Walking backwards from one position of a list to an earlier one. -/
theorem walkPrev_spec (h : IsSegment m none nodes e) {i : ℕ} {index : ℤ} (n : ℕ)
    (hn : index + n = i) (hpos : 0 ≤ index) (hlt : i < nodes.length) :
    walkPrev m index nodes[i]? i = (nodes[i - n]?, index) := by
  induction n generalizing i with
  | zero =>
    rw [List.getElem?_eq_getElem hlt, walkPrev]
    simp [← hn]
  | succ n ih =>
    obtain ⟨i, rfl⟩ : ∃ j, i = j + 1 := ⟨i - 1, by omega⟩
    rw [List.getElem?_eq_getElem hlt, walkPrev, if_pos (by omega),
      h.prev_getElem (List.getElem?_eq_getElem hlt)]
    have hstep := @ih i (by omega) (by omega)
    rw [show ((i + 1 : ℕ) : ℤ) - 1 = i by omega, Nat.add_sub_add_right]
    exact hstep

/-- A walk that starts at the index stays there. -/
theorem walkNext_self {index : ℤ} (current : Option ℕ) {start : ℤ} (h : ¬ start < index) :
    walkNext m index current start = (current, start) := by
  cases current with
  | none => rw [walkNext]
  | some c => rw [walkNext, if_neg h]

theorem walkPrev_self {index : ℤ} (current : Option ℕ) {start : ℤ} (h : ¬ start > index) :
    walkPrev m index current start = (current, start) := by
  cases current with
  | none => rw [walkPrev]
  | some c => rw [walkPrev, if_neg h]

/-- The walk of an insertion, forwards. -/
theorem seek_forward (h : IsSegment m b nodes none) {i : ℕ} {index : ℤ} (n : ℕ)
    (hn : (i : ℤ) + n = index) (hlt : index < nodes.length) {fuel : ℕ} (hfuel : n < fuel) :
    seek m index true fuel nodes[i]? i = some nodes[i + n]? := by
  induction n generalizing i fuel with
  | zero =>
    obtain ⟨fuel, rfl⟩ : ∃ k, fuel = k + 1 := ⟨fuel - 1, by omega⟩
    rw [List.getElem?_eq_getElem (by omega), seek, if_pos (by omega), Nat.add_zero,
      List.getElem?_eq_getElem]
  | succ n ih =>
    obtain ⟨fuel, rfl⟩ : ∃ k, fuel = k + 1 := ⟨fuel - 1, by omega⟩
    have hi : i < nodes.length := by omega
    rw [List.getElem?_eq_getElem hi, seek, if_neg (by omega), if_pos rfl, if_pos rfl,
      h.next_getElem (List.getElem?_eq_getElem hi)]
    have hstep := @ih (i + 1) (by omega) fuel (by omega)
    rw [show ((i + 1 : ℕ) : ℤ) = i + 1 by omega, show i + 1 + n = i + (n + 1) by omega] at hstep
    exact hstep

/-- The walk of an insertion, backwards. -/
theorem seek_backward (h : IsSegment m none nodes e) {i : ℕ} {index : ℤ} (n : ℕ)
    (hn : index + n = i) (hpos : 0 ≤ index) (hlt : i < nodes.length) {fuel : ℕ}
    (hfuel : n < fuel) : seek m index false fuel nodes[i]? i = some nodes[i - n]? := by
  induction n generalizing i fuel with
  | zero =>
    obtain ⟨fuel, rfl⟩ : ∃ k, fuel = k + 1 := ⟨fuel - 1, by omega⟩
    rw [List.getElem?_eq_getElem hlt, seek, if_pos (by omega), Nat.sub_zero,
      List.getElem?_eq_getElem hlt]
  | succ n ih =>
    obtain ⟨fuel, rfl⟩ : ∃ k, fuel = k + 1 := ⟨fuel - 1, by omega⟩
    obtain ⟨i, rfl⟩ : ∃ j, i = j + 1 := ⟨i - 1, by omega⟩
    rw [List.getElem?_eq_getElem hlt, seek, if_neg (by omega), if_neg Bool.false_ne_true,
      if_neg Bool.false_ne_true, h.prev_getElem (List.getElem?_eq_getElem hlt)]
    have hstep := @ih i (by omega) (by omega) fuel (by omega)
    rw [show ((i + 1 : ℕ) : ℤ) - 1 = i by omega, Nat.add_sub_add_right]
    exact hstep

end Walks

/-! ## Reading

The distances decide where a walk starts and never what it finds. -/

/-- The walks of `get` reach the index from any position. -/
theorem walks_spec {m : Pointers ℕ} (h : IsSegment m none nodes none) {i k : ℕ}
    (hi : i < nodes.length) (hk : k < nodes.length) :
    (walkPrev m k (walkNext m k nodes[i]? i).1 (walkNext m k nodes[i]? i).2).1 = nodes[k]? := by
  rcases Nat.le_total i k with hle | hle
  · rw [walkNext_spec h (k - i) (by omega) (by omega), walkPrev_self _ (by simp),
      Nat.add_sub_cancel' hle]
  · rw [walkNext_self _ (by omega), walkPrev_spec h (i - k) (by omega) (by omega) hi,
      Nat.sub_sub_self hle]

/-- `get` starts at a position of the list. -/
theorem Describes.startAt_eq (h : Describes l nodes items) {k : ℕ} (hk : k < nodes.length) :
    ∃ i : ℕ, i < nodes.length ∧ l.startAt k = (nodes[i]?, (i : ℤ)) := by
  have hsize := h.size_eq_length
  unfold startAt
  dsimp only
  by_cases hcursor : l.cursorNode.isSome ∧ l.cursorIndex ≥ 0 ∧
      (if (k : ℤ) - l.cursorIndex < 0 then -((k : ℤ) - l.cursorIndex)
        else (k : ℤ) - l.cursorIndex) <
      if (k : ℤ) < l.size - 1 - k then (k : ℤ) else l.size - 1 - k
  · rw [if_pos hcursor]
    rcases h.cursor with ⟨hnone, -⟩ | ⟨i, hi, hindex, hnode⟩
    · rw [hnone] at hcursor
      exact absurd hcursor.1 Bool.false_ne_true
    · exact ⟨i, hi, by rw [hindex, hnode]⟩
  · rw [if_neg hcursor]
    split
    · exact ⟨0, by omega, by rw [h.head_eq_getElem]; rfl⟩
    · exact ⟨nodes.length - 1, by omega, by rw [h.tail_eq_getElem, hsize]; congr 1; omega⟩

/-- **From the head, the tail or the cursor, `get` finds the node at the index.** -/
theorem Describes.nodeAt_eq (h : Describes l nodes items) {k : ℕ} (hk : k < nodes.length) :
    l.nodeAt k = nodes[k]? := by
  obtain ⟨i, hi, hstart⟩ := h.startAt_eq hk
  rw [nodeAt]
  rw [hstart]
  exact walks_spec h.segment hi hk

/-- `get` returns the payload, and moves the cursor to the node it found. -/
theorem Describes.get (h : Describes l nodes items) {index : ℤ} (hlow : 0 ≤ index)
    (hhigh : index < items.length) :
    (l.get index).1 = items[index.toNat]?.join ∧ Describes (l.get index).2 nodes items := by
  obtain ⟨k, rfl⟩ := Int.eq_ofNat_of_zero_le hlow
  have hk : k < nodes.length := by
    rw [h.length_eq]
    omega
  have hnode : l.nodeAt k = some nodes[k] := by
    rw [h.nodeAt_eq hk, List.getElem?_eq_getElem hk]
  have hsize := h.size_eq
  have hget : l.get k =
      (l.data nodes[k], { l with cursorNode := some nodes[k], cursorIndex := k }) := by
    rw [LinkedList.get, if_neg (by omega), hnode]
  rw [hget]
  constructor
  · rw [Int.toNat_natCast, ← h.data_eq, List.getElem?_map, List.getElem?_eq_getElem hk]
    rfl
  · exact { h with cursor := .inr ⟨k, hk, rfl, (List.getElem?_eq_getElem hk).symm⟩ }

/-- An insertion after the first items. -/
theorem insertIdx_middle {β : Type*} (s t : List β) (x : β) :
    (s ++ t).insertIdx s.length x = s ++ x :: t := by
  induction s with
  | nil => rfl
  | cons a s ih => rw [List.cons_append, List.length_cons, List.insertIdx_succ_cons, ih]; rfl

/-! ## Removing -/

theorem Describes.dropCursor (h : Describes l nodes items) :
    Describes l.dropCursor nodes items :=
  { h with cursor := .inl ⟨rfl, rfl⟩ }

/-- `remove` walks to the node at the index, from the nearer end. -/
theorem Describes.victim_eq (h : Describes l nodes items) {k : ℕ} (hk : k < nodes.length) :
    l.victim k = nodes[k]? := by
  have hsize := h.size_eq_length
  rw [victim]
  split
  · have hwalk := walkNext_spec h.segment k (show ((0 : ℕ) : ℤ) + k = k by omega) (by omega)
    rw [Nat.zero_add] at hwalk
    rw [h.head_eq_getElem]
    exact congrArg Prod.fst hwalk
  · have hlast : nodes.length - 1 < nodes.length := by omega
    have hwalk := walkPrev_spec h.segment (nodes.length - 1 - k)
      (show (k : ℤ) + (nodes.length - 1 - k : ℕ) = (nodes.length - 1 : ℕ) by omega) (by omega)
      hlast
    rw [h.tail_eq_getElem, hsize, show (nodes.length : ℤ) - 1 = (nodes.length - 1 : ℕ) by omega,
      hwalk, Nat.sub_sub_self (by omega)]

/-- Linking the neighbours of a node to each other, assignment by assignment. -/
theorem unlinkNode_eq {c : ℕ} (hprev : l.prev c ≠ some c) : l.unlinkNode c =
    { l with
      toPointers := l.toPointers.unlink c
      head := if (l.prev c).isSome then l.head else l.next c
      tail := if (l.next c).isSome then l.tail else l.prev c
      size := l.size - 1 } := by
  have hpointers : (l.unlinkNode c).toPointers = l.toPointers.unlink c := by
    rw [unlinkNode]
    cases hp : l.prev c with
    | none =>
      cases hn : l.next c <;> ext a b <;>
        simp [Pointers.unlink, hp, hn, setHead, setTail, setPrev, Function.update_apply, eq_comm]
    | some p =>
      have hne : c ≠ p := by
        rintro rfl
        exact hprev hp
      cases hn : l.next c <;> ext a b <;>
        simp [Pointers.unlink, hp, hn, setTail, setNext, setPrev, Function.update_apply, hne,
          eq_comm]
  rw [← hpointers]
  rw [unlinkNode]
  cases hp : l.prev c with
  | none => cases hn : l.next c <;> simp [hn, setHead, setTail, setPrev, hp]
  | some p =>
    have hne : c ≠ p := by
      rintro rfl
      exact hprev hp
    cases hn : l.next c <;> simp [hp, hn, setNext, setTail, setPrev, hne]

/-- Taking out a node of the sequence. -/
theorem Describes.unlinkNode {s t : List ℕ} {c : ℕ} (h : Describes l (s ++ c :: t) items)
    (hcursor : l.cursorNode = none ∧ l.cursorIndex = -1) :
    Describes (l.unlinkNode c) (s ++ t) (items.eraseIdx s.length) := by
  obtain ⟨hprev, hnext⟩ := h.segment.neighbours
  have hnodup := h.nodup
  obtain ⟨-, -, hdisj⟩ := List.nodup_append.mp hnodup
  have hself : l.prev c ≠ some c := fun heq =>
    hdisj c (List.mem_of_getLast? (hprev ▸ heq)) c List.mem_cons_self rfl
  have hsub : (s ++ t).Sublist (s ++ c :: t) := (List.sublist_cons_self c t).append_left s
  have herase : items.eraseIdx s.length = (s ++ t).map l.data := by
    rw [← h.data_eq, List.eraseIdx_map, List.eraseIdx_append_of_length_le (Nat.le_refl _),
      Nat.sub_self, List.eraseIdx_cons_zero]
  rw [unlinkNode_eq hself, herase]
  constructor
  · exact h.segment.unlink hnodup
  · exact hsub.nodup hnodup
  · rfl
  · show (if (l.prev c).isSome then l.head else l.next c) = (s ++ t).head?
    rw [hprev, hnext, h.head_eq]
    cases s <;> simp
  · show (if (l.next c).isSome then l.tail else l.prev c) = (s ++ t).getLast?
    rw [hprev, hnext, h.tail_eq]
    cases t <;> simp [List.getLast?_cons]
  · show l.size - 1 = _
    rw [h.size_eq_length]
    simp
    omega
  · exact fun a ha => h.lt_fresh a (hsub.mem ha)
  · exact .inl hcursor

/-- `remove` takes out the item at the index. -/
theorem Describes.remove (h : Describes l nodes items) {index : ℤ} (hlow : 0 ≤ index)
    (hhigh : index < items.length) :
    ∃ nodes' l', l.remove index = (.success, l') ∧
      Describes l' nodes' (items.eraseIdx index.toNat) := by
  obtain ⟨k, rfl⟩ := Int.eq_ofNat_of_zero_le hlow
  have hk : k < nodes.length := by
    rw [h.length_eq]
    omega
  have hsize := h.size_eq
  have hdrop := h.dropCursor
  have hvictim : l.dropCursor.victim k = some nodes[k] := by
    rw [hdrop.victim_eq hk, List.getElem?_eq_getElem hk]
  have hremove : l.remove k = (.success, l.dropCursor.unlinkNode nodes[k]) := by
    rw [LinkedList.remove, if_neg (by omega)]
    dsimp only
    rw [hvictim]
    rfl
  have hsplit : nodes = nodes.take k ++ nodes[k] :: nodes.drop (k + 1) := by
    rw [List.getElem_cons_drop, List.take_append_drop]
  rw [hsplit] at hdrop
  have hdesc := hdrop.unlinkNode ⟨rfl, rfl⟩
  rw [List.length_take_of_le (Nat.le_of_lt hk)] at hdesc
  exact ⟨_, _, hremove, hdesc⟩

/-! ## Inserting -/

/-- What a branch of an insertion makes of the list, for a new node between `s` and `t`. -/
def linked (l : LinkedList α) (s t : List ℕ) (x : ℕ) : LinkedList α :=
  { l with
    toPointers := l.toPointers.insertBetween s.getLast? t.head? x
    head := (s ++ x :: t).head?
    tail := (s ++ x :: t).getLast? }

section Link

variable {s t : List ℕ} {x : ℕ}

/-- The new node goes first. -/
theorem linkFirst_eq (h : Describes l nodes items) (hx : x ∉ nodes) (hnext : l.next x = none)
    (hprev : l.prev x = none) : l.linkFirst x = l.linked [] nodes x := by
  rw [linkFirst, linked]
  cases nodes with
  | nil =>
    have hhead : l.head = none := h.head_eq
    rw [hhead]
    ext a b <;> simp [setTail, setHead, Pointers.insertBetween]
    all_goals grind
  | cons c t =>
    have hhead : l.head = some c := h.head_eq
    have htail : l.tail = some (t.getLast?.getD c) := by rw [h.tail_eq, List.getLast?_cons]
    have hne : x ≠ c := fun heq => hx (heq ▸ List.mem_cons_self)
    rw [hhead]
    ext a b <;>
      simp [setNext, setPrev, setHead, Pointers.insertBetween, Function.update_apply, htail,
        List.getLast?_cons]
    all_goals grind

/-- The new node goes last. -/
theorem linkLast_eq (h : Describes l nodes items) (hne : nodes ≠ []) (hx : x ∉ nodes)
    (hnext : l.next x = none) : l.linkLast x = l.linked nodes [] x := by
  obtain ⟨init, c, rfl⟩ := (List.eq_nil_or_concat' nodes).resolve_left hne
  have htail : l.tail = some c := by rw [h.tail_eq, List.getLast?_concat]
  have hhead : l.head = some (init.head?.getD c) := by rw [h.head_eq]; cases init <;> rfl
  have hxc : x ≠ c := fun heq => hx (heq ▸ by simp)
  rw [linkLast, linked]
  ext a b <;>
    simp [setNext, setPrev, setTail, Pointers.insertBetween, Function.update_apply, htail, hhead]
  all_goals grind

/-- The links of an insertion before a node that has a predecessor. -/
theorem spliceBefore_eq {c p : ℕ} (hprev : l.prev c = some p) (hxc : x ≠ c) (hxp : x ≠ p) :
    l.spliceBefore x c = { l with toPointers := l.toPointers.insertBetween p c x } := by
  have hfirst : (l.setNext x (some c)).prev c = some p := hprev
  have hsecond : ((l.setNext x (some c)).setPrev x (some p)).prev c = some p := by
    simp [setNext, setPrev, hxc.symm, hprev]
  rw [spliceBefore]
  dsimp only
  rw [hfirst, hsecond]
  ext a b <;> simp [setNext, setPrev, Pointers.insertBetween, Function.update_apply]
  all_goals grind

/-- The new node goes before a node inside. -/
theorem linkBefore_eq {c : ℕ} (h : Describes l (s ++ c :: t) items) (hne : s ≠ [])
    (hx : x ∉ s ++ c :: t) : l.linkBefore x s.length c = l.linked s (c :: t) x := by
  obtain ⟨init, p, rfl⟩ := (List.eq_nil_or_concat' s).resolve_left hne
  have hprev : l.prev c = some p := by rw [h.segment.neighbours.1, List.getLast?_concat]
  have hsize := h.size_eq_length
  have hxc : x ≠ c := fun heq => hx (heq ▸ by simp)
  have hxp : x ≠ p := fun heq => hx (heq ▸ by simp)
  have hhead : l.head = (init ++ [p] ++ x :: c :: t).head? := by
    rw [h.head_eq]
    cases init <;> rfl
  have htail : l.tail = (init ++ [p] ++ x :: c :: t).getLast? := by
    rw [h.tail_eq]
    simp [List.getLast?_cons]
  rw [List.length_append, List.length_cons] at hsize
  have hpos : ((init ++ [p]).length : ℤ) ≠ 0 := by simp; omega
  have hlt : ((init ++ [p]).length : ℤ) ≠ l.size := by omega
  rw [linkBefore, linked]
  rw [spliceBefore_eq hprev hxc hxp]
  dsimp only
  rw [if_neg hpos, if_neg hlt, ← hhead, ← htail, List.getLast?_concat]
  rfl

/-- The walk of an insertion finds the node at the index, from the nearer end. -/
theorem linkInside_eq {c : ℕ} (h : Describes l (s ++ c :: t) items) (hne : s ≠ [])
    (hx : x ∉ s ++ c :: t) : l.linkInside x s.length = some (l.linked s (c :: t) x) := by
  have hsize := h.size_eq_length
  have hlen : (s ++ c :: t).length = s.length + 1 + t.length := by simp; omega
  have hat : (s ++ c :: t)[s.length]? = some c := by simp
  have hfound : seek l.toPointers s.length (decide ((s.length : ℤ) < l.size / 2))
      (l.size.toNat + 1) (if decide ((s.length : ℤ) < l.size / 2) then l.head else l.tail)
      (if decide ((s.length : ℤ) < l.size / 2) then 0 else l.size - 1) = some (some c) := by
    by_cases hforward : (s.length : ℤ) < l.size / 2
    · have hseek := seek_forward h.segment s.length
        (show ((0 : ℕ) : ℤ) + s.length = s.length by omega) (by omega)
        (show s.length < l.size.toNat + 1 by omega)
      rw [Nat.zero_add, hat, ← h.head_eq_getElem] at hseek
      rw [decide_eq_true hforward, if_pos rfl, if_pos rfl]
      exact hseek
    · have hseek := seek_backward h.segment t.length
        (show (s.length : ℤ) + t.length = (s.length + t.length : ℕ) by omega) (by omega) (by omega)
        (show t.length < l.size.toNat + 1 by omega)
      rw [Nat.add_sub_cancel, hat] at hseek
      rw [decide_eq_false hforward, if_neg Bool.false_ne_true, if_neg Bool.false_ne_true,
        h.tail_eq_getElem, hlen, show s.length + 1 + t.length - 1 = s.length + t.length by omega,
        hsize, hlen, show ((s.length + 1 + t.length : ℕ) : ℤ) - 1 = (s.length + t.length : ℕ) by
          omega]
      rw [hsize, hlen] at hseek
      exact hseek
  unfold linkInside
  dsimp only
  rw [hfound, Option.map_some, Option.elim_some, linkBefore_eq h hne hx]

/-- **The three branches of an insertion**, whatever `size` counts afterwards. -/
theorem Describes.link_chains (h : Describes l (s ++ t) items) (hx : x ∉ s ++ t)
    (hfresh : x < l.fresh) (hnext : l.next x = none) (hprev : l.prev x = none)
    (hcursor : l.cursorNode = none ∧ l.cursorIndex = -1) :
    ∃ l', l.link x s.length = some l' ∧ l'.size = int32 (items.length + 1) ∧
      Chains l' (s ++ x :: t) (items.insertIdx s.length (l.data x)) := by
  have hsize := h.size_eq_length
  have hlinked : l.link x s.length =
      some { l.linked s t x with size := int32 ((l.linked s t x).size + 1) } := by
    rw [LinkedList.link]
    dsimp only
    cases s with
    | nil => rw [if_pos (by simp), linkFirst_eq h hx hnext hprev]; rfl
    | cons c s =>
      rw [if_neg (by simp; omega)]
      cases t with
      | nil =>
        rw [List.append_nil] at h hx hsize
        rw [if_pos hsize.symm, linkLast_eq h (List.cons_ne_nil _ _) hx hnext]
        rfl
      | cons d t =>
        have hlt : ((c :: s).length : ℤ) ≠ l.size := by
          rw [hsize]
          simp
          omega
        rw [if_neg hlt, linkInside_eq h (List.cons_ne_nil _ _) hx]
        rfl
  have hlen := h.length_eq
  refine ⟨_, hlinked, congrArg (fun n => int32 (n + 1)) h.size_eq, ?_⟩
  have hperm : (s ++ x :: t).Perm (x :: (s ++ t)) := List.perm_middle
  constructor
  · exact h.segment.insertBetween h.nodup hx
  · exact hperm.nodup_iff.mpr (List.nodup_cons.mpr ⟨hx, h.nodup⟩)
  · show (s ++ x :: t).map l.data = _
    rw [← insertIdx_middle, List.map_insertIdx, h.data_eq]
  · rfl
  · rfl
  · rfl
  · intro a ha
    rcases List.mem_cons.mp (hperm.mem_iff.mp ha) with rfl | ha
    · exact hfresh
    · exact h.lt_fresh a ha
  · exact .inl hcursor

/-- **The three branches of an insertion**, and the count. -/
theorem Describes.link (h : Describes l (s ++ t) items) (hx : x ∉ s ++ t) (hfresh : x < l.fresh)
    (hnext : l.next x = none) (hprev : l.prev x = none)
    (hcursor : l.cursorNode = none ∧ l.cursorIndex = -1) (hmax : items.length < intMax) :
    ∃ l', l.link x s.length = some l' ∧
      Describes l' (s ++ x :: t) (items.insertIdx s.length (l.data x)) := by
  obtain ⟨l', hlink, hsize, hchains⟩ := h.link_chains hx hfresh hnext hprev hcursor
  refine ⟨l', hlink, hchains.describes ?_⟩
  have hlen := h.length_eq
  rw [List.length_append] at hlen
  rw [intMax] at hmax
  rw [hsize, int32_eq (by omega) (by omega), List.length_insertIdx_of_le_length (by omega)]
  rfl

end Link

/-- A new node is not yet in the sequence. -/
theorem Describes.newNode (h : Describes l nodes items) (item : Option α) :
    Describes (l.newNode item) nodes items := by
  have hne : ∀ a ∈ nodes, a ≠ l.fresh := fun a ha => Nat.ne_of_lt (h.lt_fresh a ha)
  refine { h with segment := ?_, data_eq := ?_, lt_fresh := ?_ }
  · refine h.segment.congr (fun a ha => ?_) fun a ha => ?_
    · exact Function.update_of_ne (hne a ha) _ _
    · exact Function.update_of_ne (hne a ha) _ _
  · rw [← h.data_eq]
    exact List.map_congr_left fun a ha => Function.update_of_ne (hne a ha) _ _
  · exact fun a ha => Nat.lt_succ_of_lt (h.lt_fresh a ha)

/-- An insertion that gets its node chains the item at the index, and counts it in `int`. -/
theorem Describes.insert_chains (h : Describes l nodes items) (item : Option α) {index : ℤ}
    (hlow : 0 ≤ index) (hhigh : index ≤ items.length) {a : Allocator} (ha : a.outcome 0 = true) :
    ∃ nodes' l', l.insert item index a = some (.success, l', a.skip 1) ∧
      l'.size = int32 (items.length + 1) ∧
      Chains l' nodes' (items.insertIdx index.toNat item) := by
  obtain ⟨k, rfl⟩ := Int.eq_ofNat_of_zero_le hlow
  have hsize := h.size_eq
  have hk : k ≤ nodes.length := by
    rw [h.length_eq]
    omega
  have hnew := (h.newNode item).dropCursor
  have hfresh : l.fresh ∉ nodes := fun hmem => Nat.lt_irrefl _ (h.lt_fresh _ hmem)
  rw [← List.take_append_drop k nodes] at hnew hfresh
  obtain ⟨l', hlink, hcount, hdesc⟩ := hnew.link_chains hfresh (Nat.lt_succ_self _)
    (Function.update_self _ _ _) (Function.update_self _ _ _) ⟨rfl, rfl⟩
  have hdata : (l.newNode item).dropCursor.data l.fresh = item := Function.update_self _ _ _
  rw [List.length_take_of_le hk] at hlink hdesc
  rw [hdata] at hdesc
  refine ⟨_, l', ?_, hcount, hdesc⟩
  rw [LinkedList.insert, if_neg (by omega)]
  dsimp only [Allocator.alloc]
  rw [if_pos ha, hlink]
  rfl

/-- An insertion that gets its node. -/
theorem Describes.insert_of_alloc (h : Describes l nodes items) (item : Option α) {index : ℤ}
    (hlow : 0 ≤ index) (hhigh : index ≤ items.length) (hmax : items.length < intMax)
    {a : Allocator} (ha : a.outcome 0 = true) : ∃ nodes' l',
      l.insert item index a = some (.success, l', a.skip 1) ∧
        Describes l' nodes' (items.insertIdx index.toNat item) := by
  obtain ⟨nodes', l', hinsert, hcount, hchains⟩ := h.insert_chains item hlow hhigh ha
  refine ⟨nodes', l', hinsert, hchains.describes ?_⟩
  rw [intMax] at hmax
  rw [hcount, int32_eq (by omega) (by omega), List.length_insertIdx_of_le_length (by omega)]
  rfl

/-- **With allocations succeeding, `insert` puts the item at the index.** -/
theorem Describes.insert (h : Describes l nodes items) (item : Option α) {index : ℤ}
    (hlow : 0 ≤ index) (hhigh : index ≤ items.length) (hmax : items.length < intMax) :
    ∃ nodes' l', l.insert item index Allocator.always = some (.success, l', Allocator.always) ∧
      Describes l' nodes' (items.insertIdx index.toNat item) :=
  h.insert_of_alloc item hlow hhigh hmax rfl

theorem Describes.insert_of_noAlloc (h : Describes l nodes items) (item : Option α) {index : ℤ}
    (hlow : 0 ≤ index) (hhigh : index ≤ items.length) {a : Allocator}
    (ha : a.outcome 0 = false) :
    l.insert item index a = some (.errorMemory, l, a.skip 1) := by
  have hsize := h.size_eq
  rw [LinkedList.insert, if_neg (by omega)]
  simp only [Allocator.alloc, ha, Bool.false_eq_true, if_false]
  rfl

end LinkedList

end OvaLib
