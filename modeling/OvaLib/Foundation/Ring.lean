import Mathlib.Data.List.Chain
import Mathlib.Data.List.Nodup
import Mathlib.Logic.Function.Basic
import Mathlib.Tactic.Common
import OvaLib.Foundation.FiniteSet

/-!
# Circular doubly linked lists

A memory of circular lists has two link fields for each node. `IsRing m l` says that following
`right` from the head of `l` passes the nodes of `l` in order and returns, and that `left` goes the
other way. Where a ring starts is a matter of description, so a ring may be rotated.

An edit of the links is described by what it leaves behind, not by the order of its assignments:
`Unlinked` and `Inserted` list the fields that changed. A family of disjoint rings survives an edit
of one of them.

A ring of one node links to itself, and taking a node out of a ring of two makes such a ring of the
other. The descriptions of the edits allow for that: the neighbours of a node may be one node, or
the node itself, and then the assignments of the edit overwrite each other in a certain order, which
a program may choose. So for an assignment sequence one proves its description, once, and everything
else is about descriptions.

## Main results

* `IsRing.rotate` — a ring may be read from anywhere
* `IsRing.unlink`, `IsRing.insert` — the two edits of one ring
* `Rings.unlink`, `Rings.insert`, `Rings.insertLast`, `Rings.single` — edits in a family
-/

namespace Foundation

/-- The link fields. -/
structure Dll (α : Type*) where
  left : α → α
  right : α → α

variable {α ι : Type*} {m m' : Dll α}

namespace Dll

variable [DecidableEq α]

/-- Assign a left field. -/
def setLeft (m : Dll α) (a v : α) : Dll α := { m with left := Function.update m.left a v }

/-- Assign a right field. -/
def setRight (m : Dll α) (a v : α) : Dll α := { m with right := Function.update m.right a v }

@[simp] theorem setLeft_right (m : Dll α) (a v : α) : (m.setLeft a v).right = m.right := rfl

@[simp] theorem setRight_left (m : Dll α) (a v : α) : (m.setRight a v).left = m.left := rfl

@[simp] theorem setLeft_left (m : Dll α) (a v : α) :
    (m.setLeft a v).left = Function.update m.left a v := rfl

@[simp] theorem setRight_right (m : Dll α) (a v : α) :
    (m.setRight a v).right = Function.update m.right a v := rfl

end Dll

/-! ## One ring -/

/-- `b` comes after `a`. -/
def Dll.Adj (m : Dll α) (a b : α) : Prop := m.right a = b ∧ m.left b = a

/-- **The nodes of `l` form a ring**, in this order. -/
def IsRing (m : Dll α) : List α → Prop
  | [] => True
  | a :: l => (a :: l ++ [a]).IsChain m.Adj

theorem isRing_singleton {a : α} : IsRing m [a] ↔ m.right a = a ∧ m.left a = a := by
  simp [IsRing, Dll.Adj]

/-- A chain reads the right field of all nodes but the last, the left field of all but the first. -/
theorem isChain_congr {l : List α} (h : l.IsChain m.Adj)
    (hright : ∀ a ∈ l.dropLast, m'.right a = m.right a)
    (hleft : ∀ a ∈ l.tail, m'.left a = m.left a) : l.IsChain m'.Adj := by
  induction l with
  | nil => exact .nil
  | cons a l ih =>
    cases l with
    | nil => exact .singleton a
    | cons b l =>
      obtain ⟨hab, hl⟩ := List.isChain_cons_cons.mp h
      rw [List.dropLast_cons_cons] at hright
      refine List.isChain_cons_cons.mpr ⟨⟨?_, ?_⟩, ih hl ?_ ?_⟩
      · rw [hright a List.mem_cons_self, hab.1]
      · rw [hleft b List.mem_cons_self, hab.2]
      · exact fun c hc => hright c (List.mem_cons_of_mem _ hc)
      · exact fun c hc => hleft c (List.mem_cons_of_mem _ hc)

namespace IsRing

variable {l s t : List α} {a b x : α}

/-- **A ring may be read from anywhere.** -/
theorem rotate (h : IsRing m (s ++ t)) : IsRing m (t ++ s) := by
  cases s with
  | nil => rwa [List.append_nil]
  | cons a s =>
    cases t with
    | nil => simpa using h
    | cons b t =>
      have h' : (a :: s ++ b :: (t ++ [a])).IsChain m.Adj := by simpa [IsRing] using h
      obtain ⟨h₁, h₂⟩ := List.isChain_split.mp h'
      have hjoin : (b :: t ++ a :: (s ++ [b])).IsChain m.Adj :=
        List.isChain_split.mpr ⟨by simpa using h₂, by simpa using h₁⟩
      simpa [IsRing] using hjoin

/-- A ring reads the fields of its own nodes. -/
theorem congr (h : IsRing m l) (hright : ∀ a ∈ l, m'.right a = m.right a)
    (hleft : ∀ a ∈ l, m'.left a = m.left a) : IsRing m' l := by
  cases l with
  | nil => trivial
  | cons a l =>
    refine isChain_congr (show (a :: l ++ [a]).IsChain m.Adj from h) ?_ ?_
    · rw [List.dropLast_concat]
      exact hright
    · rw [List.cons_append, List.tail_cons]
      intro b hb
      refine hleft b ?_
      rcases List.mem_append.mp hb with hb | hb
      · exact List.mem_cons_of_mem _ hb
      · rw [List.mem_singleton.mp hb]
        exact List.mem_cons_self

/-- **A traversal to the right** from the first node meets every node. -/
theorem forall_of_right {P : α → Prop} (h : IsRing m l) (hhead : ∀ a ∈ l.head?, P a)
    (hright : ∀ a, P a → P (m.right a)) : ∀ a ∈ l, P a := by
  have hchain : ∀ {l : List α}, l.IsChain m.Adj → (∀ a ∈ l.head?, P a) → ∀ a ∈ l, P a := by
    intro l
    induction l with
    | nil => exact fun _ _ a ha => absurd ha List.not_mem_nil
    | cons b l ih =>
      intro hl hb a ha
      have hPb : P b := hb b rfl
      rcases List.mem_cons.mp ha with rfl | ha
      · exact hPb
      · refine ih hl.tail (fun c hc => ?_) a ha
        cases l with
        | nil => cases hc
        | cons c' l =>
          obtain rfl : c' = c := Option.some.inj hc
          rw [← (List.isChain_cons_cons.mp hl).1.1]
          exact hright b hPb
  cases l with
  | nil => exact fun a ha => absurd ha List.not_mem_nil
  | cons b l =>
    exact hchain (List.isChain_append.mp (show (b :: l ++ [b]).IsChain _ from h)).1 hhead

theorem right_head (h : IsRing m (a :: b :: l)) : m.right a = b := by
  have h' : (a :: b :: (l ++ [a])).IsChain m.Adj := h
  exact (List.isChain_cons_cons.mp h').1.1

theorem left_head (h : IsRing m (a :: l ++ [b])) : m.left a = b ∧ m.right b = a := by
  have h' : (a :: l ++ b :: [a]).IsChain m.Adj := by simpa [IsRing] using h
  have hba := List.isChain_pair.mp (List.isChain_split.mp h').2
  exact ⟨hba.2, hba.1⟩

/-- Both neighbours of a node are in its ring, and link back. -/
theorem neighbours (h : IsRing m l) (ha : a ∈ l) :
    (m.right a ∈ l ∧ m.left (m.right a) = a) ∧ m.left a ∈ l ∧ m.right (m.left a) = a := by
  obtain ⟨s, t, rfl⟩ := List.append_of_mem ha
  have hrot : IsRing m (a :: (t ++ s)) := h.rotate
  have hsub : ∀ b ∈ a :: (t ++ s), b ∈ s ++ a :: t := by
    intro b hb
    simp only [List.mem_cons, List.mem_append] at hb ⊢
    tauto
  rcases List.eq_nil_or_concat' (t ++ s) with hnil | ⟨u, b, hu⟩
  · rw [hnil] at hrot
    obtain ⟨hr, hl⟩ := isRing_singleton.mp hrot
    exact ⟨⟨hr.symm ▸ ha, by rw [hr, hl]⟩, hl.symm ▸ ha, by rw [hl, hr]⟩
  · have hright : m.right a ∈ a :: (t ++ s) ∧ m.left (m.right a) = a := by
      have hchain : (a :: (t ++ s) ++ [a]).IsChain m.Adj := hrot
      cases hts : t ++ s with
      | nil => simp [hts] at hu
      | cons c r =>
        rw [hts] at hchain
        have hac := (List.isChain_cons_cons.mp hchain).1
        rw [hac.1]
        exact ⟨by simp, hac.2⟩
    rw [hu] at hrot
    obtain ⟨hl, hr⟩ := left_head (show IsRing m (a :: u ++ [b]) from hrot)
    rw [hl]
    exact ⟨⟨hsub _ hright.1, hright.2⟩, hsub _ (by simp [hu]), hr⟩

/-- A node that is its own neighbour is alone. -/
theorem eq_singleton (h : IsRing m l) (hnd : l.Nodup) (ha : a ∈ l) (hloop : m.right a = a) :
    l = [a] := by
  obtain ⟨s, t, rfl⟩ := List.append_of_mem ha
  have hrot : IsRing m (a :: (t ++ s)) := h.rotate
  cases hts : t ++ s with
  | nil =>
    obtain ⟨rfl, rfl⟩ := List.append_eq_nil_iff.mp hts
    rfl
  | cons b r =>
    rw [hts] at hrot
    have hba : b = a := hrot.right_head.symm.trans hloop
    have hmem : a ∈ t ++ s := hts ▸ hba ▸ List.mem_cons_self
    have hnd' : (a :: (t ++ s)).Nodup := List.nodup_append_comm.mp hnd
    exact absurd hmem (List.nodup_cons.mp hnd').1

end IsRing

/-! ## Edits -/

/-- `x` has been taken out: its neighbours link past it. -/
structure Unlinked (m m' : Dll α) (x : α) : Prop where
  right_left : m'.right (m.left x) = m.right x
  left_right : m'.left (m.right x) = m.left x
  right_eq : ∀ a ≠ m.left x, m'.right a = m.right a
  left_eq : ∀ a ≠ m.right x, m'.left a = m.left a

/-- `x` has been put in after `c`. -/
structure Inserted (m m' : Dll α) (c x : α) : Prop where
  right_c : m'.right c = x
  left_x : m'.left x = c
  right_x : m'.right x = m.right c
  left_right : m'.left (m.right c) = x
  right_eq : ∀ a, a ≠ c → a ≠ x → m'.right a = m.right a
  left_eq : ∀ a, a ≠ m.right c → a ≠ x → m'.left a = m.left a

/-- `x` has become a ring of its own. -/
structure Looped (m m' : Dll α) (x : α) : Prop where
  right_x : m'.right x = x
  left_x : m'.left x = x
  right_eq : ∀ a ≠ x, m'.right a = m.right a
  left_eq : ∀ a ≠ x, m'.left a = m.left a

namespace IsRing

variable {t : List α} {c x : α}

/-- **Taking out** the first node. -/
theorem unlink (h : IsRing m (x :: t)) (hnd : (x :: t).Nodup) (hu : Unlinked m m' x) :
    IsRing m' t := by
  cases t with
  | nil => trivial
  | cons b t =>
    obtain ⟨u, e, hue⟩ := List.eq_nil_or_concat' (b :: t) |>.resolve_left (by simp)
    have hxb := h.right_head
    have hex := (left_head (show IsRing m (x :: u ++ [e]) by
      rw [List.cons_append, ← hue]
      exact h)).1
    have hnd' : (b :: t).Nodup := (List.nodup_cons.mp hnd).2
    have hchain : (b :: t).IsChain m.Adj := by
      have h' : (x :: ((b :: t) ++ [x])).IsChain m.Adj := h
      exact (List.isChain_append.mp h'.tail).1
    have hend : (b :: t).IsChain m'.Adj := by
      refine isChain_congr hchain (fun a ha => hu.right_eq a ?_) fun a ha => hu.left_eq a ?_
      · rintro rfl
        rw [hue, List.dropLast_concat, hex] at ha
        rw [hue] at hnd'
        exact (List.nodup_append.mp hnd').2.2 _ ha _ (List.mem_singleton_self _) rfl
      · rintro rfl
        rw [hxb, List.tail_cons] at ha
        exact (List.nodup_cons.mp hnd').1 ha
    show (b :: t ++ [b]).IsChain m'.Adj
    rw [hue, List.append_assoc, List.singleton_append, List.isChain_append_cons_cons]
    refine ⟨hue ▸ hend, ⟨?_, ?_⟩, .singleton b⟩
    · rw [← hex, hu.right_left, hxb]
    · rw [← hxb, hu.left_right, hex]

/-- **Putting in** after the first node. -/
theorem insert (h : IsRing m (c :: t)) (hnd : (c :: t).Nodup) (hx : x ∉ c :: t)
    (hi : Inserted m m' c x) : IsRing m' (c :: x :: t) := by
  have hadj : m'.Adj c x := ⟨hi.right_c, hi.left_x⟩
  cases t with
  | nil =>
    obtain ⟨hr, -⟩ := isRing_singleton.mp h
    have hleft := hi.left_right
    rw [hr] at hleft
    show [c, x, c].IsChain m'.Adj
    exact .cons_cons hadj (.cons_cons ⟨by rw [hi.right_x, hr], hleft⟩ (.singleton c))
  | cons b t =>
    have hcb := h.right_head
    obtain ⟨hc, hnd'⟩ := List.nodup_cons.mp hnd
    have hrest : (b :: t ++ [c]).IsChain m'.Adj := by
      have h' : (c :: (b :: t ++ [c])).IsChain m.Adj := h
      refine isChain_congr h'.tail (fun a ha => ?_) fun a ha => ?_
      · rw [List.dropLast_concat] at ha
        refine hi.right_eq a ?_ ?_
        · rintro rfl
          exact hc ha
        · rintro rfl
          exact hx (List.mem_cons_of_mem _ ha)
      · rw [List.cons_append, List.tail_cons] at ha
        refine hi.left_eq a ?_ ?_
        · rintro rfl
          rw [hcb] at ha
          rcases List.mem_append.mp ha with ha | ha
          · exact (List.nodup_cons.mp hnd').1 ha
          · exact hc (List.mem_singleton.mp ha ▸ List.mem_cons_self)
        · rintro rfl
          rcases List.mem_append.mp ha with ha | ha
          · exact hx (List.mem_cons_of_mem _ (List.mem_cons_of_mem _ ha))
          · exact hx (List.mem_singleton.mp ha ▸ List.mem_cons_self)
    show (c :: x :: b :: (t ++ [c])).IsChain m'.Adj
    exact .cons_cons hadj (.cons_cons ⟨by rw [hi.right_x, hcb], by rw [← hcb, hi.left_right]⟩ hrest)

end IsRing

/-! ## Families

The rings of a family have owners, and no node is in two of them. -/

/-- Disjoint lists without repetition. -/
structure Apart (R : ι → List α) : Prop where
  nodup : ∀ o, (R o).Nodup
  disjoint : ∀ {a o o'}, a ∈ R o → a ∈ R o' → o = o'

/-- **A family of disjoint rings.** -/
structure Rings (m : Dll α) (R : ι → List α) : Prop extends Apart R where
  /-- Each list of the family is a ring. -/
  ring : ∀ o, IsRing m (R o)

variable {R : ι → List α}

theorem Apart.notMem_of_ne (h : Apart R) {o o' : ι} {a : α} (ha : a ∈ R o) (ho : o' ≠ o) :
    a ∉ R o' :=
  fun ha' => ho (h.disjoint ha' ha)

theorem Apart.nodup_append (h : Apart R) {o o' : ι} (ho : o ≠ o') : (R o ++ R o').Nodup := by
  refine List.nodup_append.mpr ⟨h.nodup o, h.nodup o', ?_⟩
  rintro a ha _ ha' rfl
  exact h.notMem_of_ne ha' ho ha

theorem Rings.neighbours (h : Rings m R) {o : ι} {x : α} (hx : x ∈ R o) :
    (m.right x ∈ R o ∧ m.left (m.right x) = x) ∧ m.left x ∈ R o ∧ m.right (m.left x) = x :=
  (h.ring o).neighbours hx

/-- Rings read the fields of their own nodes. -/
theorem Rings.congr (h : Rings m R)
    (hkeep : ∀ o, ∀ a ∈ R o, m'.right a = m.right a ∧ m'.left a = m.left a) : Rings m' R where
  toApart := h.toApart
  ring := fun o => (h.ring o).congr (fun a ha => (hkeep o a ha).1) fun a ha => (hkeep o a ha).2

variable [DecidableEq ι]

namespace Apart

/-- Replacing a list by one whose nodes are its own or in no list. -/
theorem update (h : Apart R) {o : ι} {l : List α} (hnd : l.Nodup)
    (hl : ∀ a ∈ l, ∀ o' ≠ o, a ∉ R o') : Apart (Function.update R o l) where
  nodup := fun o' => by
    by_cases ho : o' = o
    · rwa [ho, Function.update_self]
    · rw [Function.update_of_ne ho]
      exact h.nodup o'
  disjoint := fun {a o₁ o₂} h₁ h₂ => by
    by_cases ho₁ : o₁ = o
    · by_cases ho₂ : o₂ = o
      · rw [ho₁, ho₂]
      · rw [ho₁, Function.update_self] at h₁
        rw [Function.update_of_ne ho₂] at h₂
        exact absurd h₂ (hl a h₁ o₂ ho₂)
    · rw [Function.update_of_ne ho₁] at h₁
      by_cases ho₂ : o₂ = o
      · rw [ho₂, Function.update_self] at h₂
        exact absurd h₁ (hl a h₂ o₁ ho₁)
      · rw [Function.update_of_ne ho₂] at h₂
        exact h.disjoint h₁ h₂

end Apart

namespace Rings

variable {o : ι} {l s t : List α} {c x : α}

/-- **An edit of one ring**: it may replace the ring `o` and change no field of the others. -/
theorem update (h : Rings m R) (hnd : l.Nodup) (hl : ∀ a ∈ l, ∀ o' ≠ o, a ∉ R o')
    (hring : IsRing m' l)
    (hkeep : ∀ o' ≠ o, ∀ a ∈ R o', m'.right a = m.right a ∧ m'.left a = m.left a) :
    Rings m' (Function.update R o l) where
  toApart := h.toApart.update hnd hl
  ring := fun o' => by
    by_cases ho : o' = o
    · rwa [ho, Function.update_self]
    · rw [Function.update_of_ne ho]
      exact (h.ring o').congr (fun a ha => (hkeep o' ho a ha).1) fun a ha => (hkeep o' ho a ha).2

/-- The description of a ring may change, or a ring may be given up. -/
theorem reread (h : Rings m R) (hnd : l.Nodup) (hl : l ⊆ R o) (hring : IsRing m l) :
    Rings m (Function.update R o l) :=
  h.update hnd (fun _ ha _ ho' => h.notMem_of_ne (hl ha) ho') hring fun _ _ _ _ => ⟨rfl, rfl⟩

theorem rotate (h : Rings m R) (ho : R o = s ++ t) : Rings m (Function.update R o (t ++ s)) := by
  have hnd := h.nodup o
  have hring := h.ring o
  rw [ho] at hnd hring
  refine h.reread (List.nodup_append_comm.mp hnd) ?_ hring.rotate
  rw [ho]
  exact (List.perm_append_comm).subset

/-- **Taking a node out of its ring.** -/
theorem unlink [DecidableEq α] (h : Rings m R) (hx : x ∈ R o) (hu : Unlinked m m' x) :
    Rings m' (Function.update R o ((R o).erase x)) := by
  obtain ⟨⟨hright, -⟩, hleft, -⟩ := h.neighbours hx
  have hnd := h.nodup o
  refine h.update (hnd.erase x) (fun a ha _ ho' => h.notMem_of_ne (List.mem_of_mem_erase ha) ho')
    ?_ fun o' ho' a ha => ⟨hu.right_eq a ?_, hu.left_eq a ?_⟩
  · obtain ⟨s, t, hst⟩ := List.append_of_mem hx
    have hring := h.ring o
    rw [hst] at hring hnd ⊢
    have hnotMem : x ∉ s := fun hs => (List.nodup_append.mp hnd).2.2 x hs x List.mem_cons_self rfl
    rw [List.erase_append_right _ hnotMem, List.erase_cons_head]
    exact (hring.rotate.unlink (List.nodup_append_comm.mp hnd) hu).rotate
  · rintro rfl
    exact h.notMem_of_ne hleft ho' ha
  · rintro rfl
    exact h.notMem_of_ne hright ho' ha

/-- **Putting a new node in after the head.** -/
theorem insert (h : Rings m R) (ho : R o = c :: t) (hx : ∀ o', x ∉ R o')
    (hi : Inserted m m' c x) : Rings m' (Function.update R o (c :: x :: t)) := by
  have hnd := h.nodup o
  have hring := h.ring o
  have hxo := hx o
  have hc : c ∈ R o := ho ▸ List.mem_cons_self
  obtain ⟨⟨hright, -⟩, -⟩ := h.neighbours hc
  rw [ho] at hnd hring hxo
  obtain ⟨hct, hndt⟩ := List.nodup_cons.mp hnd
  obtain ⟨hxc, hxt⟩ := not_or.mp (mt List.mem_cons.mpr hxo)
  refine h.update ?_ ?_ (hring.insert hnd hxo hi) fun o' ho' a ha => ?_
  · refine List.nodup_cons.mpr ⟨fun hmem => ?_, List.nodup_cons.mpr ⟨hxt, hndt⟩⟩
    rcases List.mem_cons.mp hmem with rfl | hmem
    · exact hxc rfl
    · exact hct hmem
  · intro a ha o' ho'
    rcases List.mem_cons.mp ha with rfl | ha
    · exact h.notMem_of_ne hc ho'
    · rcases List.mem_cons.mp ha with rfl | ha
      · exact hx o'
      · exact h.notMem_of_ne (ho ▸ List.mem_cons_of_mem _ ha) ho'
  · have hax : a ≠ x := fun heq => hx o' (heq ▸ ha)
    exact ⟨hi.right_eq a (fun heq => h.notMem_of_ne hc ho' (heq ▸ ha)) hax,
      hi.left_eq a (fun heq => h.notMem_of_ne hright ho' (heq ▸ ha)) hax⟩

/-- **Putting a new node in before the head**, which is the end of the ring. -/
theorem insertLast (h : Rings m R) (ho : R o = c :: t) (hx : ∀ o', x ∉ R o')
    (hi : Inserted m m' (m.left c) x) : Rings m' (Function.update R o (c :: t ++ [x])) := by
  obtain ⟨u, e, hue⟩ := List.eq_nil_or_concat' (c :: t) |>.resolve_left (by simp)
  have hring := h.ring o
  rw [ho] at hring
  have hce : m.left c = e := by
    cases u with
    | nil =>
      obtain ⟨rfl, rfl⟩ := List.cons_eq_cons.mp hue
      exact (isRing_singleton.mp hring).2
    | cons c' u =>
      obtain ⟨rfl, rfl⟩ := List.cons_eq_cons.mp hue
      exact (IsRing.left_head hring).1
  rw [hce] at hi
  have hrot := h.rotate (o := o) (s := u) (t := [e]) (ho.trans hue)
  have hx' : ∀ o', x ∉ Function.update R o ([e] ++ u) o' := by
    intro o' hmem
    by_cases ho' : o' = o
    · rw [ho', Function.update_self] at hmem
      refine hx o (ho ▸ hue ▸ ?_)
      simp only [List.mem_append, List.mem_singleton] at hmem ⊢
      tauto
    · rw [Function.update_of_ne ho'] at hmem
      exact hx o' hmem
  have hins := hrot.insert (o := o) (Function.update_self _ _ _) hx' hi
  rw [Function.update_idem] at hins
  have hback := hins.rotate (o := o) (s := [e, x]) (t := u) (Function.update_self _ _ _)
  rw [Function.update_idem] at hback
  rwa [hue, List.append_assoc]

/-- **A new ring of one node**, in the place of a ring that is given up. -/
theorem single (h : Rings m R) (hx : ∀ o' ≠ o, x ∉ R o') (hl : Looped m m' x) :
    Rings m' (Function.update R o [x]) := by
  refine h.update (List.nodup_singleton x) (fun a ha o' ho' => ?_)
    (isRing_singleton.mpr ⟨hl.right_x, hl.left_x⟩) fun o' ho' a ha => ?_
  · rw [List.mem_singleton.mp ha]
    exact hx o' ho'
  · have hax : a ≠ x := fun heq => hx o' ho' (heq ▸ ha)
    exact ⟨hl.right_eq a hax, hl.left_eq a hax⟩

end Rings

end Foundation
