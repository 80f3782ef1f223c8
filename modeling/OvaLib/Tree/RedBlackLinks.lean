import OvaLib.Tree.RedBlack

/-!
# Linked trees in memory

`Linked` says that the child and parent fields below an address spell out a given tree of addresses,
and `LinkedCtx` says the same of a context; the child fields on the path to the hole and the root
field lead to the address in the hole. `Focus` combines the two, so an algorithm that walks up and
down by parent and child fields is followed by moving the boundary between them.

## Why a context

A fixup holds a pointer into the middle of a tree and changes what is around it, above and below. A
statement about the whole tree would have to be taken apart at that pointer in every step. With a
focus the part below is a tree, the part above is a list of frames from the hole up, and what a
rotation does is local to the first frame or two. Each of the primitives of the source has one lemma
about foci: it replaces the subtree in the hole, or a frame, and leaves the rest as it was.
`focus_cons_iff` moves a frame across the boundary, in both directions.

Addresses occur once in a tree and its context together. That is the frame rule of this module: an
assignment at one address leaves the fields at all others.

Colours do not occur here: recolouring leaves every `Focus` as it is.

## Main results

* `focus_cons_iff` — moving the focus one step up or down
* `rotate_focus` — a rotation in memory is a rotation of the tree
* `rbTransplant_focus` — putting another subtree in the hole
* `replaceNode_focus` — putting another node in place of one with two subtrees
-/

namespace OvaLib

namespace Tree

open Foundation

/-! ## Field access -/

namespace Links

variable (m : Links) (side side' : Side) (a b v : Addr) (c : Color)

theorem setChild_child : (m.setChild side a v).child side' b =
    if side' = side ∧ b = a then v else m.child side' b := by
  rw [setChild]
  by_cases hs : side' = side
  · subst hs
    by_cases hb : b = a <;> simp [hb]
  · simp [hs]

@[simp] theorem setChild_child_self : (m.setChild side a v).child side a = v := by
  simp [setChild_child]

@[simp] theorem setChild_child_opp :
    (m.setChild side a v).child side.opp b = m.child side.opp b := by
  simp [setChild_child]

@[simp] theorem setChild_opp_child : (m.setChild side.opp a v).child side b = m.child side b := by
  simp [setChild_child]

theorem setChild_child_of_ne {b a : Addr} (h : b ≠ a) :
    (m.setChild side a v).child side' b = m.child side' b := by
  simp [setChild_child, h]

@[simp] theorem setChild_parent : (m.setChild side a v).parent = m.parent := rfl

@[simp] theorem setChild_color : (m.setChild side a v).color = m.color := rfl

@[simp] theorem setChild_root : (m.setChild side a v).root = m.root := rfl

@[simp] theorem setParent_child : (m.setParent a v).child = m.child := rfl

@[simp] theorem setParent_color : (m.setParent a v).color = m.color := rfl

@[simp] theorem setParent_root : (m.setParent a v).root = m.root := rfl

@[simp] theorem setParent_parent_self : (m.setParent a v).parent a = v := Function.update_self _ _ _

theorem setParent_parent_of_ne {b a : Addr} (h : b ≠ a) :
    (m.setParent a v).parent b = m.parent b :=
  Function.update_of_ne h _ _

@[simp] theorem setColor_child : (m.setColor a c).child = m.child := rfl

@[simp] theorem setColor_parent : (m.setColor a c).parent = m.parent := rfl

@[simp] theorem setColor_root : (m.setColor a c).root = m.root := rfl

@[simp] theorem setColor_color : (m.setColor a c).color = Function.update m.color a c := rfl

end Links

/-! ## Linked trees -/

/-- The fields below address `p`, whose parent is `par`, spell out a tree. -/
def Linked (child : Side → Addr → Addr) (parent : Addr → Addr) :
    BinaryTree Addr → Addr → Addr → Prop
  | .nil, p, _ => p = nil
  | .node a l r, p, par =>
    p = a ∧ a ≠ nil ∧ parent a = par ∧ Linked child parent l (child .left a) a ∧
      Linked child parent r (child .right a) a

/-- The address a hole hangs from. -/
def ctxParent : Context Addr → Addr
  | [] => nil
  | f :: _ => f.label

/-- The fields around a hole spell out a context, and lead to `p` in the hole. -/
def LinkedCtx (child : Side → Addr → Addr) (parent : Addr → Addr) (root : Addr) :
    Context Addr → Addr → Prop
  | [], p => root = p
  | f :: ctx, p =>
    f.label ≠ nil ∧ child f.side f.label = p ∧ parent f.label = ctxParent ctx ∧
      Linked child parent f.sibling (child f.side.opp f.label) f.label ∧
      LinkedCtx child parent root ctx f.label

variable {child child' : Side → Addr → Addr} {parent parent' : Addr → Addr} {root : Addr}
  {t : BinaryTree Addr} {ctx : Context Addr} {p par : Addr}

theorem linked_branch {side : Side} {a : Addr} {near far : BinaryTree Addr} :
    Linked child parent (branch side a near far) p par ↔
      p = a ∧ a ≠ nil ∧ parent a = par ∧ Linked child parent near (child side a) a ∧
        Linked child parent far (child side.opp a) a := by
  cases side with
  | left => rfl
  | right =>
    simp only [branch, Linked, Side.opp_right]
    tauto

/-- Two memories that agree on the addresses of a tree. Then one spells out the tree if the other
does. -/
def Agree (child child' : Side → Addr → Addr) (parent parent' : Addr → Addr) (l : List Addr) :
    Prop :=
  ∀ a ∈ l, parent' a = parent a ∧ ∀ side, child' side a = child side a

theorem Agree.mono {l l' : List Addr} (h : Agree child child' parent parent' l)
    (hsub : ∀ a ∈ l', a ∈ l) : Agree child child' parent parent' l' :=
  fun a ha => h a (hsub a ha)

/-- **Reparenting.** A linked tree stays linked when only the parent field of its root changes. -/
theorem Linked.reparent {par' : Addr} (h : Linked child parent t p par)
    (hchild : ∀ a ∈ inorder t, ∀ side, child' side a = child side a)
    (hparent : ∀ a ∈ inorder t, a ≠ p → parent' a = parent a) (hroot : p ≠ nil → parent' p = par')
    (hnodup : (inorder t).Nodup) : Linked child' parent' t p par' := by
  induction t generalizing p par par' with
  | nil => exact h
  | node a l r ihl ihr =>
    obtain ⟨rfl, hne, -, hl, hr⟩ := h
    simp only [inorder, List.mem_append, List.mem_cons] at hchild hparent
    rw [inorder, nodup_middle_iff] at hnodup
    obtain ⟨hpl, hpr, hndl, hndr, -⟩ := hnodup
    have hroots : ∀ {s q}, p ∉ inorder s → Linked child parent s q p → q ≠ nil →
        (∀ b ∈ inorder s, b ≠ p → parent' b = parent b) → parent' q = p := by
      intro s q hps hs hq hpar
      cases s with
      | nil => exact absurd hs hq
      | node b l' r' =>
        obtain ⟨rfl, -, hqp, -⟩ := hs
        rw [hpar q (by simp [inorder]) (fun hqp' => hps (by simp [← hqp', inorder])), hqp]
    refine ⟨rfl, hne, hroot hne, ?_, ?_⟩
    · rw [hchild p (.inr (.inl rfl)) .left]
      exact ihl hl (fun b hb => hchild b (.inl hb))
        (fun b hb _ => hparent b (.inl hb) (ne_of_mem_of_not_mem hb hpl))
        (fun hq => hroots hpl hl hq fun b hb => hparent b (.inl hb)) hndl
    · rw [hchild p (.inr (.inl rfl)) .right]
      exact ihr hr (fun b hb => hchild b (.inr (.inr hb)))
        (fun b hb _ => hparent b (.inr (.inr hb)) (ne_of_mem_of_not_mem hb hpr))
        (fun hq => hroots hpr hr hq fun b hb => hparent b (.inr (.inr hb))) hndr

theorem Linked.congr (h : Linked child parent t p par)
    (hagree : Agree child child' parent parent' (inorder t)) :
    Linked child' parent' t p par := by
  induction t generalizing p par with
  | nil => exact h
  | node a l r ihl ihr =>
    obtain ⟨rfl, hne, hpar, hl, hr⟩ := h
    obtain ⟨hp, hc⟩ := hagree p (by simp [inorder])
    refine ⟨rfl, hne, hp.trans hpar, ?_, ?_⟩
    · rw [hc]
      exact ihl hl (hagree.mono fun b hb => by simp [inorder, hb])
    · rw [hc]
      exact ihr hr (hagree.mono fun b hb => by simp [inorder, hb])

theorem LinkedCtx.congr (h : LinkedCtx child parent root ctx p)
    (hagree : Agree child child' parent parent' (labels ctx)) :
    LinkedCtx child' parent' root ctx p := by
  induction ctx generalizing p with
  | nil => exact h
  | cons f ctx ih =>
    obtain ⟨hne, hp, hpar, hsib, hctx⟩ := h
    obtain ⟨hpar', hc⟩ := hagree f.label (by simp)
    refine ⟨hne, (hc _).trans hp, hpar'.trans hpar, ?_,
      ih hctx (hagree.mono fun b hb => by simp [hb])⟩
    rw [hc]
    exact hsib.congr (hagree.mono fun b hb => by simp [hb])

theorem Linked.nil_notMem (h : Linked child parent t p par) : nil ∉ inorder t := by
  induction t generalizing p par with
  | nil => simp
  | node a l r ihl ihr =>
    obtain ⟨-, hne, -, hl, hr⟩ := h
    simp only [inorder, List.mem_append, List.mem_cons, not_or]
    exact ⟨ihl hl, hne.symm, ihr hr⟩

theorem LinkedCtx.nil_notMem (h : LinkedCtx child parent root ctx p) : nil ∉ labels ctx := by
  induction ctx generalizing p with
  | nil => simp
  | cons f ctx ih =>
    obtain ⟨hne, -, -, hsib, hctx⟩ := h
    simp only [mem_labels_cons, not_or]
    exact ⟨hne.symm, hsib.nil_notMem, ih hctx⟩

/-- The address of a linked tree is the sentinel or one of its labels. -/
theorem Linked.mem_of_ne_nil (h : Linked child parent t p par) (hp : p ≠ nil) : p ∈ inorder t := by
  cases t with
  | nil => exact absurd h hp
  | node a l r =>
    obtain ⟨rfl, -⟩ := h
    simp [inorder]

theorem Linked.eq_nil_of (h : Linked child parent t nil par) : t = .nil := by
  cases t with
  | nil => rfl
  | node a l r => exact absurd h.1.symm h.2.1

theorem nodup_labels_cons {f : Frame Addr} (h : (labels (f :: ctx)).Nodup) :
    f.label ∉ inorder f.sibling ∧ f.label ∉ labels ctx ∧ (inorder f.sibling).Nodup ∧
      (labels ctx).Nodup := by
  have hplug : (inorder (plug (f :: ctx) .nil)).Nodup :=
    nodup_plug_iff.mpr ⟨List.nodup_nil, h, by simp⟩
  rw [plug_cons, nodup_plug_iff, nodup_branch_iff] at hplug
  obtain ⟨⟨-, hsib, -, hnd, -⟩, hctx, hdisj⟩ := hplug
  exact ⟨hsib, hdisj f.label (by simp), hnd, hctx⟩

/-! ## The focus -/

/-- **The memory spells out `plug ctx t`**, with `p` the address of `t`. No address occurs twice, so
an assignment to a field of one node is seen in one place of the tree. -/
structure Focus (m : Links) (ctx : Context Addr) (t : BinaryTree Addr) (p : Addr) : Prop where
  context : LinkedCtx m.child m.parent m.root ctx p
  tree : Linked m.child m.parent t p (ctxParent ctx)
  /-- No address comes twice, in the hole and around it together. -/
  nodup : (inorder (plug ctx t)).Nodup

variable {m : Links}

/-- **Moving the focus** one step up, or down into a branch. Nothing in memory changes. -/
theorem focus_cons_iff {f : Frame Addr} :
    Focus m (f :: ctx) t p ↔
      Focus m ctx (branch f.side f.label t f.sibling) f.label ∧ m.child f.side f.label = p := by
  constructor
  · rintro ⟨⟨hne, hp, hpar, hsib, hctx⟩, htree, hnd⟩
    exact ⟨⟨hctx, linked_branch.mpr ⟨rfl, hne, hpar, hp ▸ htree, hsib⟩, hnd⟩, hp⟩
  · rintro ⟨⟨hctx, htree, hnd⟩, rfl⟩
    obtain ⟨-, hne, hpar, hnear, hfar⟩ := linked_branch.mp htree
    exact ⟨⟨hne, rfl, hpar, hfar, hctx⟩, hnear, hnd⟩

theorem Focus.up {f : Frame Addr} (h : Focus m (f :: ctx) t p) :
    Focus m ctx (branch f.side f.label t f.sibling) f.label :=
  (focus_cons_iff.mp h).1

theorem Focus.down {side : Side} {a : Addr} {near far : BinaryTree Addr}
    (h : Focus m ctx (branch side a near far) p) :
    Focus m (⟨side, a, far⟩ :: ctx) near (m.child side a) := by
  obtain ⟨rfl, -⟩ := linked_branch.mp h.tree
  exact focus_cons_iff.mpr ⟨h, rfl⟩

/-- Up along a part of the context. -/
theorem Focus.climb {ctx' : Context Addr} (h : Focus m (ctx ++ ctx') t p) :
    ∃ q, Focus m ctx' (plug ctx t) q := by
  induction ctx generalizing t p with
  | nil => exact ⟨p, h⟩
  | cons f ctx ih => exact ih h.up

/-- All the way up. -/
theorem Focus.top (h : Focus m ctx t p) : Focus m [] (plug ctx t) m.root := by
  rw [← List.append_nil ctx] at h
  obtain ⟨q, hq⟩ := h.climb
  have hroot : m.root = q := hq.context
  exact ⟨rfl, hroot ▸ hq.tree, hq.nodup⟩

/-- Down along a part of the tree. -/
theorem Focus.descend {ctx' : Context Addr} (h : Focus m ctx' (plug ctx t) p) :
    ∃ q, Focus m (ctx ++ ctx') t q := by
  induction ctx generalizing t with
  | nil => exact ⟨p, h⟩
  | cons f ctx ih =>
    obtain ⟨q, hq⟩ := ih h
    exact ⟨_, hq.down⟩

theorem Linked.address_unique {par' q : Addr} (h : Linked child parent t p par)
    (h' : Linked child' parent' t q par') : p = q := by
  cases t with
  | nil => exact h.trans h'.symm
  | node a l r => exact h.1.trans h'.1.symm

/-- The fields spell out one tree only, so it may be read off them whenever it is needed. -/
theorem Linked.unique {t' : BinaryTree Addr} {par' : Addr} (h : Linked child parent t p par)
    (h' : Linked child parent' t' p par') : t = t' := by
  induction t generalizing t' p par par' with
  | nil =>
    rw [show p = nil from h] at h'
    exact h'.eq_nil_of.symm
  | node a l r ihl ihr =>
    obtain ⟨rfl, hne, -, hl, hr⟩ := h
    cases t' with
    | nil => exact absurd h' hne
    | node a' l' r' =>
      obtain ⟨rfl, -, -, hl', hr'⟩ := h'
      rw [ihl hl hl', ihr hr hr']

/-- The parent field of a node in the hole. -/
theorem Focus.parent_of_ne_nil (h : Focus m ctx t p) (hp : p ≠ nil) :
    m.parent p = ctxParent ctx := by
  cases t with
  | nil => exact absurd h.tree hp
  | node a l r =>
    obtain ⟨rfl, -, hpar, -⟩ := h.tree
    exact hpar

theorem Focus.address {side : Side} {a : Addr} {near far : BinaryTree Addr}
    (h : Focus m ctx (branch side a near far) p) : p = a :=
  (linked_branch.mp h.tree).1

theorem Focus.parent_eq {side : Side} {a : Addr} {near far : BinaryTree Addr}
    (h : Focus m ctx (branch side a near far) p) : m.parent a = ctxParent ctx :=
  (linked_branch.mp h.tree).2.2.1

theorem Focus.ne_nil {side : Side} {a : Addr} {near far : BinaryTree Addr}
    (h : Focus m ctx (branch side a near far) p) : a ≠ nil :=
  (linked_branch.mp h.tree).2.1

/-- Recolouring changes no link. -/
theorem Focus.setColor (h : Focus m ctx t p) (a : Addr) (c : Color) :
    Focus (m.setColor a c) ctx t p :=
  ⟨h.context, h.tree, h.nodup⟩

/-! ## Repointing the hole

The test `p->left == q` tells the side, since the other child is another address or the sentinel. -/

/-- Assigning the child field at the hole puts another address there. -/
theorem LinkedCtx.setChild {f : Frame Addr} {v : Addr}
    (h : LinkedCtx m.child m.parent m.root (f :: ctx) p) (hnd : (labels (f :: ctx)).Nodup) :
    LinkedCtx (m.setChild f.side f.label v).child m.parent m.root (f :: ctx) v := by
  obtain ⟨hne, -, hpar, hsib, hctx⟩ := h
  obtain ⟨hfs, hfc, -⟩ := nodup_labels_cons hnd
  refine ⟨hne, by simp, hpar, ?_, ?_⟩
  · rw [Links.setChild_child_opp]
    exact hsib.congr fun a ha =>
      ⟨rfl, fun side => Links.setChild_child_of_ne _ _ _ _ (ne_of_mem_of_not_mem ha hfs)⟩
  · exact hctx.congr fun a ha =>
      ⟨rfl, fun side => Links.setChild_child_of_ne _ _ _ _ (ne_of_mem_of_not_mem ha hfc)⟩

/-- What `replaceChild` does at the hole of a context: the context leads to another address, and no
other field has changed. -/
structure ReplaceSpec (m m' : Links) (ctx : Context Addr) (v : Addr) : Prop where
  context : LinkedCtx m'.child m.parent m'.root ctx v
  parent_eq : m'.parent = m.parent
  color_eq : m'.color = m.color
  child_eq : ∀ a ∉ labels ctx, ∀ side, m'.child side a = m.child side a

theorem replaceChild_spec (side : Side) {u : Addr} (v : Addr)
    (h : LinkedCtx m.child m.parent m.root ctx u) (hu : u ≠ nil) (hpar : m.parent u = ctxParent ctx)
    (hmem : u ∉ labels ctx) (hnd : (labels ctx).Nodup) :
    ReplaceSpec m (m.replaceChild side u v) ctx v := by
  cases ctx with
  | nil =>
    have hreplace : m.replaceChild side u v = { m with root := v } := by
      rw [Links.replaceChild, hpar]
      exact if_pos rfl
    rw [hreplace]
    exact ⟨rfl, rfl, rfl, fun _ _ _ => rfl⟩
  | cons f ctx =>
    have hreplace : m.replaceChild side u v = m.setChild f.side f.label v := by
      rw [Links.replaceChild, hpar, if_neg (by exact h.1)]
      by_cases hside : f.side = side
      · subst hside
        rw [if_pos (by exact h.2.1.symm)]
        rfl
      · -- the node tested first is the root of the sibling
        have hopp := Side.eq_opp_of_ne hside
        have hsib : Linked m.child m.parent f.sibling (m.child side f.label) f.label := by
          have := h.2.2.2.1
          rwa [hopp, Side.opp_opp] at this
        rw [if_neg, hopp]
        · rfl
        · intro heq
          refine hmem (mem_labels_cons.mpr (.inr (.inl ?_)))
          rw [heq]
          exact hsib.mem_of_ne_nil (heq ▸ hu)
    rw [hreplace]
    refine ⟨h.setChild hnd, rfl, rfl, fun a ha side' => ?_⟩
    exact Links.setChild_child_of_ne _ _ _ _ fun heq => ha (by simp [heq])

/-! ## Rotations -/

/-- The facts about a rotation that its callers use. The colours and the parent field of the
sentinel are among them, as the fixups go on to read both. -/
structure RotateSpec (m m' : Links) (ctx : Context Addr) (t : BinaryTree Addr) (p : Addr) :
    Prop where
  focus : Focus m' ctx t p
  color_eq : m'.color = m.color
  parent_nil : m'.parent nil = m.parent nil

/-- The memory of a rotation before the hole is repointed. The source assigns the fields of the two
nodes and the field above them in turn; here the former are taken together. -/
def Links.rotateInner (side : Side) (m : Links) (x y : Addr) : Links :=
  (if m.child side y ≠ nil then
    (m.setChild side.opp x (m.child side y)).setParent (m.child side y) x
  else m.setChild side.opp x (m.child side y)).setParent y (m.parent x)

section RotateInner

variable {side : Side} {x y q : Addr}

theorem rotateInner_child_of_ne (hq : q ≠ x) (s : Side) :
    (m.rotateInner side x y).child s q = m.child s q := by
  rw [Links.rotateInner]
  split <;> simp [Links.setChild_child_of_ne _ _ _ _ hq]

theorem rotateInner_child_near : (m.rotateInner side x y).child side x = m.child side x := by
  rw [Links.rotateInner]
  split <;> simp

theorem rotateInner_child_far : (m.rotateInner side x y).child side.opp x = m.child side y := by
  rw [Links.rotateInner]
  split <;> simp

theorem rotateInner_parent_self : (m.rotateInner side x y).parent y = m.parent x := by
  rw [Links.rotateInner, Links.setParent_parent_self]

theorem rotateInner_parent_far (hne : m.child side y ≠ nil) (hby : m.child side y ≠ y) :
    (m.rotateInner side x y).parent (m.child side y) = x := by
  rw [Links.rotateInner, if_pos hne, Links.setParent_parent_of_ne _ _ hby,
    Links.setParent_parent_self]

theorem rotateInner_parent_of_ne (hq : q ≠ y) (hqb : q ≠ m.child side y ∨ q = nil) :
    (m.rotateInner side x y).parent q = m.parent q := by
  rw [Links.rotateInner, Links.setParent_parent_of_ne _ _ hq]
  split
  · next hne =>
    have hqb' : q ≠ m.child side y := hqb.elim id fun heq => heq ▸ hne.symm
    rw [Links.setParent_parent_of_ne _ _ hqb']
    rfl
  · rfl

theorem rotateInner_color : (m.rotateInner side x y).color = m.color := by
  rw [Links.rotateInner]
  split <;> rfl

theorem rotateInner_root : (m.rotateInner side x y).root = m.root := by
  rw [Links.rotateInner]
  split <;> rfl

theorem rotate_eq (hy : m.child side.opp x = y) (hyx : y ≠ x) (hxb : x ≠ m.child side y) :
    Links.rotate side m x =
      (((m.rotateInner side x y).replaceChild side x y).setChild side y x).setParent x y := by
  have hby : (m.setChild side.opp x (m.child side y)).child side y = m.child side y :=
    Links.setChild_child_of_ne _ _ _ _ hyx
  rw [Links.rotate, Links.rotateInner]
  simp only [hy, hby]
  split
  · rw [Links.setParent_parent_of_ne _ _ hxb]
    rfl
  · rfl

end RotateInner

/-- The links after a rotation that moves `x` down and `y` up. -/
structure Rotated (m m' : Links) (side : Side) (ctx : Context Addr) (x y : Addr) : Prop where
  context : LinkedCtx m'.child m'.parent m'.root ctx y
  near_eq : m'.child side x = m.child side x
  far_eq : m'.child side.opp x = m.child side y
  /-- The node that moves up has the other as its child. -/
  up_eq : m'.child side y = x
  keep_eq : m'.child side.opp y = m.child side.opp y
  child_eq : ∀ q ≠ x, q ≠ y → q ∉ labels ctx → ∀ s, m'.child s q = m.child s q
  parent_down : m'.parent x = y
  parent_up : m'.parent y = ctxParent ctx
  parent_far : m.child side y ≠ nil → m'.parent (m.child side y) = x
  parent_eq : ∀ q ≠ x, q ≠ y → q ≠ m.child side y ∨ q = nil → m'.parent q = m.parent q
  color_eq : m'.color = m.color

theorem rotate_rotated {side : Side} {x y : Addr}
    (hctx : LinkedCtx m.child m.parent m.root ctx x) (hx : x ≠ nil)
    (hparx : m.parent x = ctxParent ctx) (hchildy : m.child side.opp x = y) (hxy : x ≠ y)
    (hxctx : x ∉ labels ctx) (hyctx : y ∉ labels ctx) (hndctx : (labels ctx).Nodup)
    (hb : m.child side y ≠ nil →
      m.child side y ≠ x ∧ m.child side y ≠ y ∧ m.child side y ∉ labels ctx) :
    Rotated m (Links.rotate side m x) side ctx x y := by
  have hyx : y ≠ x := fun heq => hxy heq.symm
  have hxb : x ≠ m.child side y := fun heq => (hb (heq ▸ hx)).1 heq.symm
  have hparx₃ : (m.rotateInner side x y).parent x = ctxParent ctx :=
    (rotateInner_parent_of_ne hxy (.inl hxb)).trans hparx
  have hctx₃ : LinkedCtx (m.rotateInner side x y).child (m.rotateInner side x y).parent
      (m.rotateInner side x y).root ctx x := by
    rw [rotateInner_root]
    refine hctx.congr fun q hq => ⟨rotateInner_parent_of_ne (ne_of_mem_of_not_mem hq hyctx) ?_,
      rotateInner_child_of_ne (ne_of_mem_of_not_mem hq hxctx)⟩
    by_cases hq' : q = nil
    · exact .inr hq'
    · exact .inl fun heq => (hb (heq ▸ hq')).2.2 (heq ▸ hq)
  obtain ⟨hctx₄, hparent₄, hcolor₄, hchild₄⟩ :=
    replaceChild_spec side y hctx₃ hx hparx₃ hxctx hndctx
  rw [rotate_eq hchildy hyx hxb]
  -- outside the context only `x`, `y` and the root of their middle subtree have changed
  obtain ⟨m', hm'⟩ : ∃ m' : Links, m' =
      (((m.rotateInner side x y).replaceChild side x y).setChild side y x).setParent x y :=
    ⟨_, rfl⟩
  have hchild' : ∀ q ≠ y, ∀ s,
      m'.child s q = ((m.rotateInner side x y).replaceChild side x y).child s q := by
    intro q hq s
    rw [hm', Links.setParent_child, Links.setChild_child_of_ne _ _ _ _ hq]
  have hparent' : ∀ q ≠ x, m'.parent q = (m.rotateInner side x y).parent q := by
    intro q hq
    rw [hm', Links.setParent_parent_of_ne _ _ hq, Links.setChild_parent, hparent₄]
  have hroot' : m'.root = ((m.rotateInner side x y).replaceChild side x y).root := by
    rw [hm']
    rfl
  rw [← hm']
  exact
    { context := by
        rw [hroot']
        exact hctx₄.congr fun q hq => ⟨hparent' q (ne_of_mem_of_not_mem hq hxctx),
          hchild' q (ne_of_mem_of_not_mem hq hyctx)⟩
      near_eq := by rw [hchild' x hxy, hchild₄ x hxctx, rotateInner_child_near]
      far_eq := by rw [hchild' x hxy, hchild₄ x hxctx, rotateInner_child_far]
      up_eq := by rw [hm']; simp
      keep_eq := by
        rw [hm', Links.setParent_child, Links.setChild_child_opp, hchild₄ y hyctx,
          rotateInner_child_of_ne hyx]
      child_eq := fun q hq hqy hqctx s => by
        rw [hchild' q hqy, hchild₄ q hqctx, rotateInner_child_of_ne hq]
      parent_down := by rw [hm']; simp
      parent_up := by rw [hparent' y hyx, rotateInner_parent_self, hparx]
      parent_far := fun hne => by
        rw [hparent' _ (hb hne).1, rotateInner_parent_far hne (hb hne).2.1]
      parent_eq := fun q hq hqy hqb => by rw [hparent' q hq, rotateInner_parent_of_ne hqy hqb]
      color_eq := by rw [hm']; exact hcolor₄.trans rotateInner_color }

/-- **A rotation in memory is a rotation of the tree.** The tree in the hole is another one with the
same nodes in the same order, and the context is the one it was. -/
theorem rotate_focus {side : Side} {x y : Addr} {a b d : BinaryTree Addr}
    (h : Focus m ctx (branch side x a (branch side y b d)) p) :
    RotateSpec m (Links.rotate side m x) ctx (branch side y (branch side x a b) d) y := by
  obtain ⟨hctx, htree, hnd⟩ := h
  have hnd' := hnd
  rw [nodup_plug_iff, nodup_branch_iff, nodup_branch_iff] at hnd'
  obtain ⟨⟨hxa, hxy, hnda, ⟨hyb, hyd, hndb, hndd, hbd⟩, haY⟩, hndctx, hdisj⟩ := hnd'
  simp only [mem_inorder_branch, not_or] at hxy haY hdisj
  obtain ⟨hxy, hxb, hxd⟩ := hxy
  obtain ⟨rfl, hx, hparx, ha, hY⟩ := linked_branch.mp htree
  obtain ⟨hchildy, hy, hpary, hb, hd⟩ := linked_branch.mp hY
  have hb_mem : m.child side y ≠ nil → m.child side y ∈ inorder b := hb.mem_of_ne_nil
  have hsub : ∀ q ∈ inorder b, q ≠ p ∧ q ≠ y ∧ q ∉ labels ctx := fun q hq =>
    ⟨ne_of_mem_of_not_mem hq hxb, ne_of_mem_of_not_mem hq hyb,
      hdisj q (.inr (.inr (.inr (.inl hq))))⟩
  have hrot := rotate_rotated hctx hx hparx hchildy hxy (hdisj p (.inl rfl))
    (hdisj y (.inr (.inr (.inl rfl)))) hndctx fun hne => hsub _ (hb_mem hne)
  -- an address outside the middle subtree is not its root
  have houter : ∀ q ∉ inorder b, q ≠ m.child side y ∨ q = nil := by
    intro q hq
    by_cases hqnil : q = nil
    · exact .inr hqnil
    · exact .inl fun heq => hq (heq ▸ hb_mem (heq ▸ hqnil))
  refine ⟨⟨hrot.context, ?_, ?_⟩, hrot.color_eq, ?_⟩
  · refine linked_branch.mpr ⟨rfl, hy, hrot.parent_up, ?_, ?_⟩
    · rw [hrot.up_eq]
      refine linked_branch.mpr ⟨rfl, hx, hrot.parent_down, ?_, ?_⟩
      · rw [hrot.near_eq]
        refine ha.congr fun q hq => ?_
        have hqp := ne_of_mem_of_not_mem hq hxa
        have hqy : q ≠ y := fun heq => (haY q hq).1 heq
        exact ⟨hrot.parent_eq q hqp hqy (houter q (haY q hq).2.1),
          hrot.child_eq q hqp hqy (hdisj q (.inr (.inl hq)))⟩
      · rw [hrot.far_eq]
        refine hb.reparent (fun q hq => ?_) (fun q hq hne => ?_) (fun hne => ?_) hndb
        · exact hrot.child_eq q (hsub q hq).1 (hsub q hq).2.1 (hsub q hq).2.2
        · exact hrot.parent_eq q (hsub q hq).1 (hsub q hq).2.1 (.inl hne)
        · exact hrot.parent_far hne
    · rw [hrot.keep_eq]
      refine hd.congr fun q hq => ?_
      have hqp := ne_of_mem_of_not_mem hq hxd
      have hqy := ne_of_mem_of_not_mem hq hyd
      exact ⟨hrot.parent_eq q hqp hqy (houter q fun hqb => hbd q hqb hq),
        hrot.child_eq q hqp hqy (hdisj q (.inr (.inr (.inr (.inr hq)))))⟩
  · rw [inorder_plug_congr ctx (inorder_rotate side p y a b d)]
    exact hnd
  · exact hrot.parent_eq nil hx.symm hy.symm (.inr rfl)

/-! ## Transplanting

The subtree that is put in the hole may be the sentinel, which gets a parent then. -/

/-- What `rb_transplant` does at the hole of a context. It sets the parent field of what it puts
there even if that is the sentinel, on which `rb_delete_fixup` relies. -/
structure TransplantSpec (m m' : Links) (ctx : Context Addr) (v : Addr) : Prop where
  context : LinkedCtx m'.child m'.parent m'.root ctx v
  parent_self : m'.parent v = ctxParent ctx
  parent_eq : ∀ q ≠ v, m'.parent q = m.parent q
  color_eq : m'.color = m.color
  child_eq : ∀ a ∉ labels ctx, ∀ side, m'.child side a = m.child side a

theorem rbTransplant_spec {u v : Addr} (h : LinkedCtx m.child m.parent m.root ctx u) (hu : u ≠ nil)
    (hpar : m.parent u = ctxParent ctx) (hmem : u ∉ labels ctx) (hnd : (labels ctx).Nodup)
    (hv : v ∉ labels ctx) : TransplantSpec m (m.rbTransplant u v) ctx v := by
  obtain ⟨hctx, hparent, hcolor, hchild⟩ := replaceChild_spec .left v h hu hpar hmem hnd
  have hself : (m.rbTransplant u v).parent v = ctxParent ctx := by
    rw [Links.rbTransplant, Links.setParent_parent_self, hparent, hpar]
  have hne : ∀ q ≠ v, (m.rbTransplant u v).parent q = m.parent q := by
    intro q hq
    rw [Links.rbTransplant, Links.setParent_parent_of_ne _ _ hq, hparent]
  refine ⟨?_, hself, hne, hcolor, hchild⟩
  exact hctx.congr fun q hq => ⟨hne q (ne_of_mem_of_not_mem hq hv), fun _ => rfl⟩

/-- **Putting another subtree in the hole.** -/
theorem rbTransplant_focus {u v par' : Addr} {s : BinaryTree Addr} (h : Focus m ctx t u)
    (hu : u ≠ nil) (hs : Linked m.child m.parent s v par') (hsub : ∀ a ∈ inorder s, a ∈ inorder t)
    (hnds : (inorder s).Nodup) :
    TransplantSpec m (m.rbTransplant u v) ctx v ∧ Focus (m.rbTransplant u v) ctx s v := by
  obtain ⟨-, hndctx, hdisj⟩ := nodup_plug_iff.mp h.nodup
  have hv : v ∉ labels ctx := by
    by_cases hnil : v = nil
    · rw [hnil]
      exact h.context.nil_notMem
    · exact hdisj v (hsub v (hs.mem_of_ne_nil hnil))
  have hspec := rbTransplant_spec h.context hu (h.parent_of_ne_nil hu)
    (hdisj u (h.tree.mem_of_ne_nil hu)) hndctx hv
  refine ⟨hspec, hspec.context, ?_, nodup_plug_iff.mpr
    ⟨hnds, hndctx, fun a ha => hdisj a (hsub a ha)⟩⟩
  exact hs.reparent (fun a ha => hspec.child_eq a (hdisj a (hsub a ha)))
    (fun a _ hne => hspec.parent_eq a hne) (fun _ => hspec.parent_self) hnds

/-- **Putting another node in place of one with two subtrees.** The right subtree hangs below the
new node `y` already; the left one is still below `z`. -/
theorem replaceNode_focus {z y : Addr} {l r : BinaryTree Addr}
    (hctx : LinkedCtx m.child m.parent m.root ctx z) (hz : z ≠ nil)
    (hpar : m.parent z = ctxParent ctx)
    (hl : Linked m.child m.parent l (m.child .left z) z) (hlne : m.child .left z ≠ nil)
    (hr : Linked m.child m.parent r (m.child .right y) y) (hy : y ≠ nil)
    (hz_mem : z ∉ labels ctx) (hnd : (inorder (plug ctx (.node y l r))).Nodup) :
    let m' := ((m.rbTransplant z y).setChild .left y ((m.rbTransplant z y).child .left z))
    let m'' := m'.setParent (m'.child .left y) y
    Focus m'' ctx (.node y l r) y ∧ m''.color = m.color ∧ m''.parent nil = m.parent nil := by
  intro m' m''
  obtain ⟨hndT, hndctx, hdisj⟩ := nodup_plug_iff.mp hnd
  rw [inorder, nodup_middle_iff] at hndT
  obtain ⟨hyl, hyr, hndl, hndr, hlr⟩ := hndT
  have hyctx : y ∉ labels ctx := hdisj y (by simp [inorder])
  have hspec := rbTransplant_spec hctx hz hpar hz_mem hndctx hyctx
  have hleft : m'.child .left y = m.child .left z := by
    simp only [m', Links.setChild_child_self]
    exact hspec.child_eq z hz_mem .left
  have hl_mem : m.child .left z ∈ inorder l := hl.mem_of_ne_nil hlne
  have hlctx : m.child .left z ∉ labels ctx := hdisj _ (by simp [inorder, hl_mem])
  have hm'' : m'' = m'.setParent (m.child .left z) y := by simp only [m'', hleft]
  have hchild : ∀ q ≠ y, ∀ side, m''.child side q = (m.rbTransplant z y).child side q :=
    fun q hq side => Links.setChild_child_of_ne _ _ _ _ hq
  have hright : m''.child .right y = m.child .right y := by
    rw [hm'', Links.setParent_child]
    exact (Links.setChild_child_opp _ .left y y _).trans (hspec.child_eq y hyctx .right)
  have hparent : ∀ q ≠ m.child .left z, m''.parent q = (m.rbTransplant z y).parent q := by
    intro q hq
    rw [hm'', Links.setParent_parent_of_ne _ _ hq]
    rfl
  have hyl' : y ≠ m.child .left z := fun heq => hyl (heq ▸ hl_mem)
  refine ⟨⟨?_, ⟨rfl, hy, ?_, ?_, ?_⟩, hnd⟩, hspec.color_eq, ?_⟩
  · exact hspec.context.congr fun q hq => ⟨hparent q (ne_of_mem_of_not_mem hq hlctx),
      hchild q (ne_of_mem_of_not_mem hq hyctx)⟩
  · exact (hparent y hyl').trans hspec.parent_self
  · have hleft' : m''.child .left y = m.child .left z := hleft
    rw [hleft']
    refine hl.reparent (fun q hq side => ?_) (fun q hq hne => ?_) (fun _ => ?_) hndl
    · rw [hchild q (ne_of_mem_of_not_mem hq hyl),
        hspec.child_eq q (hdisj q (by simp [inorder, hq]))]
    · rw [hparent q hne, hspec.parent_eq q (ne_of_mem_of_not_mem hq hyl)]
    · rw [hm'', Links.setParent_parent_self]
  · rw [hright]
    refine hr.congr fun q hq => ⟨?_, fun side => ?_⟩
    · rw [hparent q fun heq => hlr _ hl_mem (heq ▸ hq),
        hspec.parent_eq q (ne_of_mem_of_not_mem hq hyr)]
    · rw [hchild q (ne_of_mem_of_not_mem hq hyr),
        hspec.child_eq q (hdisj q (by simp [inorder, hq]))]
  · rw [hparent nil hlne.symm, hspec.parent_eq nil hy.symm]

end Tree

end OvaLib
