import Mathlib.Data.List.Induction
import Mathlib.Data.List.Nodup
import Mathlib.Logic.Function.Basic
import Mathlib.Tactic.Common

/-!
# Doubly linked lists that end in null

Two link fields for each node, either of which may be null. `IsSegment m b l e` says that the nodes
of `l` are linked to each other in this order, the first one back to `b` and the last one on to `e`;
a whole list has null at both ends. Segments compose, so an edit in the middle of a list is an edit
at the ends of the two segments that meet there.

The neighbours of a place may be missing, at either end of the list, and a program then changes its
head or tail in place of a link. `insertBetween` and `unlink` take optional neighbours, so that one
lemma serves the ends and the middle. A walk along the links from either end is the list, read
forwards or backwards, and a node that is some places away is reached by as many links.

Singly linked lists are followed by `Follows`, which is the same without the links back.

## Main results

* `isSegment_append` — a segment is made of two that meet
* `IsSegment.insertBetween`, `IsSegment.unlink` — the two edits of a list
* `IsSegment.follows_next`, `IsSegment.follows_prev` — a list read forwards and backwards
* `IsSegment.next_getElem`, `IsSegment.prev_getElem` — a link goes to the neighbouring position
* `Follows.insertAfter`, `Follows.eraseAfter` — the two edits of a list with one link
-/

namespace Foundation

/-- The link fields. -/
@[ext] structure Pointers (α : Type*) where
  next : α → Option α
  prev : α → Option α

variable {α : Type*} {m m' : Pointers α} {b b' e e' : Option α} {l s t : List α} {a x : α}

/-- **The nodes of `l` are linked in this order**, between `b` and `e`. -/
def IsSegment (m : Pointers α) : Option α → List α → Option α → Prop
  | _, [], _ => True
  | b, a :: l, e => m.prev a = b ∧ m.next a = l.head?.or e ∧ IsSegment m (some a) l e

/-- Reading links from `o` on passes the nodes of the list, then null. -/
def Follows (link : α → Option α) : Option α → List α → Prop
  | o, [] => o = none
  | o, a :: l => o = some a ∧ Follows link (link a) l

/-! ## Segments -/

/-- A segment reads the fields of its own nodes. -/
theorem IsSegment.congr (h : IsSegment m b l e) (hnext : ∀ a ∈ l, m'.next a = m.next a)
    (hprev : ∀ a ∈ l, m'.prev a = m.prev a) : IsSegment m' b l e := by
  induction l generalizing b with
  | nil => trivial
  | cons a l ih =>
    obtain ⟨hp, hn, hl⟩ := h
    refine ⟨(hprev a List.mem_cons_self).trans hp, (hnext a List.mem_cons_self).trans hn, ?_⟩
    exact ih hl (fun c hc => hnext c (List.mem_cons_of_mem _ hc))
      fun c hc => hprev c (List.mem_cons_of_mem _ hc)

/-- **A segment is made of two that meet.** -/
theorem isSegment_append : IsSegment m b (s ++ t) e ↔
    IsSegment m b s (t.head?.or e) ∧ IsSegment m (s.getLast?.or b) t e := by
  induction s generalizing b with
  | nil => simp [IsSegment]
  | cons a s ih =>
    have hlast : ((a :: s).getLast?).or b = s.getLast?.or (some a) := by
      cases s <;> simp [List.getLast?_cons]
    have hhead : (s ++ t).head?.or e = s.head?.or (t.head?.or e) := by
      rw [List.head?_append, Option.or_assoc]
    rw [List.cons_append, IsSegment, IsSegment, hhead, hlast, ih, and_assoc, and_assoc]

/-- The last node of a segment is linked on to something else. -/
theorem IsSegment.setEnd (h : IsSegment m b l e) (hl : l.Nodup)
    (hprev : ∀ a ∈ l, m'.prev a = m.prev a)
    (hnext : ∀ a ∈ l, l.getLast? ≠ some a → m'.next a = m.next a)
    (hlast : ∀ a, l.getLast? = some a → m'.next a = e') : IsSegment m' b l e' := by
  induction l generalizing b with
  | nil => trivial
  | cons a l ih =>
    obtain ⟨hp, hn, hrest⟩ := h
    obtain ⟨ha, hl⟩ := List.nodup_cons.mp hl
    refine ⟨(hprev a List.mem_cons_self).trans hp, ?_, ?_⟩
    · cases l with
      | nil => exact hlast a rfl
      | cons c l =>
        rw [hnext a List.mem_cons_self fun heq => ha (List.mem_of_getLast? (by simpa using heq)),
          hn]
        rfl
    · cases l with
      | nil => trivial
      | cons c l =>
        rw [List.getLast?_cons_cons] at hnext hlast
        exact ih hrest hl (fun d hd => hprev d (List.mem_cons_of_mem _ hd))
          (fun d hd => hnext d (List.mem_cons_of_mem _ hd)) hlast

/-- The first node of a segment is linked back to something else. -/
theorem IsSegment.setStart (h : IsSegment m b l e) (hl : l.Nodup)
    (hnext : ∀ a ∈ l, m'.next a = m.next a)
    (hprev : ∀ a ∈ l, l.head? ≠ some a → m'.prev a = m.prev a)
    (hhead : ∀ a, l.head? = some a → m'.prev a = b') : IsSegment m' b' l e := by
  cases l with
  | nil => trivial
  | cons a l =>
    obtain ⟨-, hn, hrest⟩ := h
    obtain ⟨ha, -⟩ := List.nodup_cons.mp hl
    refine ⟨hhead a rfl, (hnext a List.mem_cons_self).trans hn, hrest.congr ?_ ?_⟩
    · exact fun c hc => hnext c (List.mem_cons_of_mem _ hc)
    · intro c hc
      refine hprev c (List.mem_cons_of_mem _ hc) fun heq => ?_
      obtain rfl := Option.some.inj heq
      exact ha hc

/-- The links of a node in a list. -/
theorem IsSegment.neighbours (h : IsSegment m none (s ++ x :: t) none) :
    m.prev x = s.getLast? ∧ m.next x = t.head? := by
  obtain ⟨-, hprev, hnext, -⟩ := isSegment_append.mp h
  exact ⟨by simpa using hprev, by simpa using hnext⟩

/-! ## Edits -/

namespace Pointers

variable [DecidableEq α]

/-- Assign a forward link. -/
def setNext (m : Pointers α) (a : α) (v : Option α) : Pointers α :=
  { m with next := Function.update m.next a v }

/-- Assign a backward link. -/
def setPrev (m : Pointers α) (a : α) (v : Option α) : Pointers α :=
  { m with prev := Function.update m.prev a v }

@[simp] theorem setNext_prev (m : Pointers α) (a : α) (v : Option α) :
    (m.setNext a v).prev = m.prev := rfl

@[simp] theorem setPrev_next (m : Pointers α) (a : α) (v : Option α) :
    (m.setPrev a v).next = m.next := rfl

@[simp] theorem setNext_next (m : Pointers α) (a : α) (v : Option α) :
    (m.setNext a v).next = Function.update m.next a v := rfl

@[simp] theorem setPrev_prev (m : Pointers α) (a : α) (v : Option α) :
    (m.setPrev a v).prev = Function.update m.prev a v := rfl

/-- Link `x` between two nodes, either of which may be null. -/
def insertBetween (m : Pointers α) (before after : Option α) (x : α) : Pointers α where
  next a := if a = x then after else if before = some a then some x else m.next a
  prev a := if a = x then before else if after = some a then some x else m.prev a

/-- Link the neighbours of `x` to each other. -/
def unlink (m : Pointers α) (x : α) : Pointers α where
  next a := if m.prev x = some a then m.next x else m.next a
  prev a := if m.next x = some a then m.prev x else m.prev a

end Pointers

section Edits

variable [DecidableEq α]

/-- **Linking a new node between two segments.** -/
theorem IsSegment.insertBetween (h : IsSegment m none (s ++ t) none) (hnodup : (s ++ t).Nodup)
    (hx : x ∉ s ++ t) :
    IsSegment (m.insertBetween s.getLast? t.head? x) none (s ++ x :: t) none := by
  obtain ⟨hs, ht⟩ := isSegment_append.mp h
  obtain ⟨hsnodup, htnodup, hdisj⟩ := List.nodup_append.mp hnodup
  rw [List.mem_append, not_or] at hx
  refine isSegment_append.mpr ⟨?_, ?_, ?_, ?_⟩
  · refine hs.setEnd hsnodup (fun a ha => ?_) (fun a ha hne => ?_) fun a ha => ?_
    · have hne : t.head? ≠ some a := fun heq => hdisj a ha a (List.mem_of_head? heq) rfl
      simp [Pointers.insertBetween, hne, ne_of_mem_of_not_mem ha hx.1]
    · simp [Pointers.insertBetween, hne, ne_of_mem_of_not_mem ha hx.1]
    · simp [Pointers.insertBetween, ha, ne_of_mem_of_not_mem (List.mem_of_getLast? ha) hx.1]
  · simp [Pointers.insertBetween]
  · simp [Pointers.insertBetween]
  · refine ht.setStart htnodup (fun a ha => ?_) (fun a ha hne => ?_) fun a ha => ?_
    · have hne : s.getLast? ≠ some a := fun heq => hdisj a (List.mem_of_getLast? heq) a ha rfl
      simp [Pointers.insertBetween, hne, ne_of_mem_of_not_mem ha hx.2]
    · simp [Pointers.insertBetween, hne, ne_of_mem_of_not_mem ha hx.2]
    · simp [Pointers.insertBetween, ha, ne_of_mem_of_not_mem (List.mem_of_head? ha) hx.2]

/-- **Linking the neighbours of a node to each other.** -/
theorem IsSegment.unlink (h : IsSegment m none (s ++ x :: t) none)
    (hnodup : (s ++ x :: t).Nodup) : IsSegment (m.unlink x) none (s ++ t) none := by
  obtain ⟨hprev, hnext⟩ := h.neighbours
  obtain ⟨hs, -, -, ht⟩ := isSegment_append.mp h
  obtain ⟨hsnodup, htnodup, hdisj⟩ := List.nodup_append.mp hnodup
  refine isSegment_append.mpr ⟨?_, ?_⟩
  · refine hs.setEnd hsnodup (fun a ha => ?_) (fun a ha hne => ?_) fun a ha => ?_
    · have hne : t.head? ≠ some a := fun heq =>
        hdisj a ha a (List.mem_cons_of_mem _ (List.mem_of_head? heq)) rfl
      simp [Pointers.unlink, hnext, hne]
    · simp [Pointers.unlink, hprev, hne]
    · simp [Pointers.unlink, hprev, hnext, ha]
  · refine ht.setStart (List.nodup_cons.mp htnodup).2 (fun a ha => ?_) (fun a ha hne => ?_)
      fun a ha => ?_
    · have hne : s.getLast? ≠ some a := fun heq =>
        hdisj a (List.mem_of_getLast? heq) a (List.mem_cons_of_mem _ ha) rfl
      simp [Pointers.unlink, hprev, hne]
    · simp [Pointers.unlink, hnext, hne]
    · simp [Pointers.unlink, hprev, hnext, ha]

end Edits

/-! ## Reading a list

From the first node forwards, or from the last one backwards. -/

/-- **Read forwards**, a list gives its nodes in order. -/
theorem IsSegment.follows_next (h : IsSegment m b l none) : Follows m.next l.head? l := by
  induction l generalizing b with
  | nil => rfl
  | cons a l ih =>
    obtain ⟨-, hn, hl⟩ := h
    refine ⟨rfl, ?_⟩
    rw [hn, Option.or_none]
    exact ih hl

/-- **Read backwards**, a list gives its nodes in reverse order. -/
theorem IsSegment.follows_prev (h : IsSegment m none l e) :
    Follows m.prev l.getLast? l.reverse := by
  induction l using List.reverseRecOn generalizing e with
  | nil => rfl
  | append_singleton l a ih =>
    obtain ⟨hl, hp, -⟩ := isSegment_append.mp h
    rw [List.getLast?_concat, List.reverse_concat]
    refine ⟨rfl, ?_⟩
    rw [hp, Option.or_none]
    exact ih hl

/-- The forward link goes to the next position. -/
theorem IsSegment.next_getElem (h : IsSegment m b l none) {i : ℕ} (hi : l[i]? = some a) :
    m.next a = l[i + 1]? := by
  induction l generalizing b i with
  | nil => simp at hi
  | cons c l ih =>
    obtain ⟨-, hn, hl⟩ := h
    cases i with
    | zero =>
      obtain rfl : c = a := by simpa using hi
      rw [hn, Option.or_none, List.head?_eq_getElem?]
      rfl
    | succ i => exact ih hl (by simpa using hi)

/-- The backward link goes to the previous position. -/
theorem IsSegment.prev_getElem (h : IsSegment m b l e) {i : ℕ} (hi : l[i + 1]? = some a) :
    m.prev a = l[i]? := by
  induction l generalizing b i with
  | nil => simp at hi
  | cons c l ih =>
    obtain ⟨-, -, hl⟩ := h
    cases i with
    | zero =>
      cases l with
      | nil => simp at hi
      | cons d l =>
        obtain rfl : d = a := by simpa using hi
        exact hl.1
    | succ i => exact ih hl (by simpa using hi)

/-! ## Singly linked lists -/

section

variable {link link' : α → Option α} {o : Option α} {u : α}

theorem Follows.congr (h : Follows link o l) (heq : ∀ a ∈ l, link' a = link a) :
    Follows link' o l := by
  induction l generalizing o with
  | nil => exact h
  | cons a l ih =>
    refine ⟨h.1, ?_⟩
    rw [heq a List.mem_cons_self]
    exact ih h.2 fun c hc => heq c (List.mem_cons_of_mem _ hc)

/-- The links determine the list. -/
theorem Follows.unique {l l' : List α} {o : Option α} (h : Follows link o l)
    (h' : Follows link o l') : l = l' := by
  induction l generalizing o l' with
  | nil =>
    obtain rfl : o = none := h
    cases l' with
    | nil => rfl
    | cons a l' => cases h'.1
  | cons a l ih =>
    obtain ⟨rfl, hrest⟩ := h
    cases l' with
    | nil => cases h'
    | cons a' l' =>
      obtain ⟨heq, hrest'⟩ := h'
      obtain rfl := Option.some.inj heq
      rw [ih hrest hrest']

theorem Follows.eq_head? (h : Follows link o l) : o = l.head? := by
  cases l with
  | nil => exact h
  | cons a l => exact h.1

/-- What follows a node of the list. -/
theorem Follows.after (h : Follows link o (s ++ a :: t)) : Follows link (link a) t := by
  induction s generalizing o with
  | nil => exact h.2
  | cons c s ih => exact ih h.2

/-- A list may be continued differently after a node. -/
theorem Follows.replace (h : Follows link o (s ++ a :: t)) (heq : ∀ c ∈ s, link' c = link c)
    (hnew : Follows link' (link' a) l) : Follows link' o (s ++ a :: l) := by
  induction s generalizing o with
  | nil => exact ⟨h.1, hnew⟩
  | cons c s ih =>
    refine ⟨h.1, ?_⟩
    rw [heq c List.mem_cons_self]
    exact ih h.2 fun d hd => heq d (List.mem_cons_of_mem _ hd)

variable [DecidableEq α]

/-- **A new node is linked after a node** of the list. -/
theorem Follows.insertAfter (h : Follows link o (s ++ u :: t)) (hnodup : (s ++ u :: t).Nodup)
    (hx : x ∉ s ++ u :: t) :
    Follows (Function.update (Function.update link x (link u)) u (some x)) o
      (s ++ u :: x :: t) := by
  have hxu : x ≠ u := fun heq => hx (heq ▸ List.mem_append_right _ List.mem_cons_self)
  obtain ⟨-, hut, hdisj⟩ := List.nodup_append.mp hnodup
  obtain ⟨hu, -⟩ := List.nodup_cons.mp hut
  have hmem : ∀ c, c ∈ s ∨ c ∈ t → c ∈ s ++ u :: t := by
    simp only [List.mem_append, List.mem_cons]
    tauto
  refine h.replace (fun c hc => ?_) ⟨Function.update_self _ _ _, ?_⟩
  · have hcu : c ≠ u := hdisj c hc u List.mem_cons_self
    rw [Function.update_of_ne hcu,
      Function.update_of_ne (ne_of_mem_of_not_mem (hmem c (.inl hc)) hx)]
  · rw [Function.update_of_ne hxu, Function.update_self]
    refine h.after.congr fun c hc => ?_
    rw [Function.update_of_ne (ne_of_mem_of_not_mem hc hu),
      Function.update_of_ne (ne_of_mem_of_not_mem (hmem c (.inr hc)) hx)]

/-- **The node after a node is taken out.** -/
theorem Follows.eraseAfter (h : Follows link o (s ++ u :: x :: t))
    (hnodup : (s ++ u :: x :: t).Nodup) :
    Follows (Function.update link u (link x)) o (s ++ u :: t) := by
  obtain ⟨-, hut, hdisj⟩ := List.nodup_append.mp hnodup
  obtain ⟨hu, -⟩ := List.nodup_cons.mp hut
  have hafter : Follows link (link x) t := h.after.2
  refine h.replace (fun c hc => ?_) ?_
  · exact Function.update_of_ne (hdisj c hc u List.mem_cons_self) _ _
  · rw [Function.update_self]
    refine hafter.congr fun c hc => Function.update_of_ne ?_ _ _
    exact ne_of_mem_of_not_mem (List.mem_cons_of_mem _ hc) hu

end

end Foundation
