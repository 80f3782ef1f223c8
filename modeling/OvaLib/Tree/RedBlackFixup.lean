import OvaLib.Tree.RedBlackLinks

/-!
# The fixups

Both fixups move a focus up the tree. During `rb_insert_fixup` the node in focus is red, and the
tree is red-black except that its parent may be red too. During `rb_delete_fixup` the subtree in
focus is one black node short of what its context needs. In either case an iteration moves the focus
up, or ends with a rotation after which the tree is red-black.

## The two invariants

`Balanced` says of a subtree that no red node has a red child and that all paths have the same
number of black nodes, and `Fits` says what a context needs of the subtree in its hole. Both are of
the library, over trees of addresses with a colour for each. A tree with a focus is red-black when
the subtree is balanced and fits. During insertion it is balanced and fits but for the colour at its
top, and during deletion it is balanced and fits but for one in the count.

## The cases

Insertion has three cases on each side, by the colour of the uncle and by the side of the node.
Deletion has four, by the colour of the sibling and of its children; the first of them, a red
sibling, rotates and goes on with one of the others in the same iteration. The sides are parameters,
so that each case is proved once. The rotations come from `RedBlackLinks`, and what is shown here is
which colours make the result balanced, and that the reads of the source see the colours that the
case says.

## The sentinel as a focus

During a deletion the node in focus may be the sentinel, which stands at every missing child and so
has no place of its own. Two things still tell where it is. Its parent field was set when the node
above it was taken out, which is the hypothesis `hpar` of the rules for deletion. And it is compared
with one child of that parent only, so the comparison could go wrong only if the other child were
the sentinel as well. It is not: the subtree in focus lacks a black node, so its sibling has one.
The lemmas about sides have this as their second alternative.

Rotations move the parent fields of real nodes only, so the field of the sentinel survives them.

## The colour of the sentinel

`m.color nil = .black` is part of every statement. The source reads the colours of children without
asking whether they are there, and of the parent of the root, which is the sentinel too; black is
the answer that makes both loops stop, or pass on, where they should.

## Main results

* `rbInsertFixup_spec`, `rbDeleteFixup_spec` — the fixups end, with a red-black tree on the same
  nodes in the same order
-/

namespace OvaLib

namespace Tree

open Foundation

variable {m : Links} {ctx : Context Addr} {t : BinaryTree Addr} {p z : Addr} {n : ℕ} {c : Color}

/-- **A red-black tree in memory**, with the given nodes in order. The list is what an operation
must not change, so the specifications of the fixups can say "the same nodes in the same order"
without the tree that has them. -/
def IsRedBlack (m : Links) (l : List Addr) : Prop :=
  ∃ T, Focus m [] T m.root ∧ inorder T = l ∧ (∃ n, Balanced m.color .black n T) ∧
    m.color nil = .black

/-! ## Reading colours and sides

What the source finds out by following pointers: the colour of the parent, of the uncle, of the
sibling and its children, and on which side of its parent a node is. -/

/-- The colour field at the address of a red-black tree. An empty tree is black, and so is the
sentinel that stands for it. -/
theorem Linked.color_eq {child : Side → Addr → Addr} {parent : Addr → Addr} {par : Addr}
    {color : Addr → Color} (h : Linked child parent t p par) (ht : Balanced color c n t)
    (hnil : color nil = .black) : color p = c := by
  cases ht with
  | nil => rw [show p = nil from h, hnil]
  | red ha => rw [h.1, ha]
  | black ha => rw [h.1, ha]

/-- A tree that is red, or has a black node on its paths, is not empty. -/
theorem Linked.ne_nil_of_pos {child : Side → Addr → Addr} {parent : Addr → Addr} {par : Addr}
    {color : Addr → Color} (h : Linked child parent t p par) (ht : Balanced color c n t)
    (hne : c = .red ∨ 0 < n) : p ≠ nil := by
  obtain ⟨a, near, far, rfl⟩ := ht.exists_branch .left hne
  rw [h.1]
  exact h.2.1

/-- The address in a hole is not the one on the other side of the parent. -/
theorem Focus.ne_child_opp {f : Frame Addr} (h : Focus m (f :: ctx) t p)
    (hne : p ≠ nil ∨ m.child f.side.opp f.label ≠ nil) : p ≠ m.child f.side.opp f.label := by
  obtain ⟨-, -, -, hsib, -⟩ := h.context
  have hnd := h.nodup
  rw [plug_cons, nodup_plug_iff, nodup_branch_iff] at hnd
  intro heq
  have hp : p ≠ nil := by
    rcases hne with hp | hp
    exacts [hp, heq ▸ hp]
  exact hnd.1.2.2.2.2 p (h.tree.mem_of_ne_nil hp) (heq ▸ hsib.mem_of_ne_nil (heq ▸ hp))

/-- Testing the hole against the child on a given side tells whether that is its side. -/
theorem Focus.eq_child_iff {f : Frame Addr} (h : Focus m (f :: ctx) t p)
    (hne : p ≠ nil ∨ m.child f.side.opp f.label ≠ nil) (side : Side) :
    p = m.child side f.label ↔ side = f.side := by
  constructor
  · intro heq
    by_contra hside
    rw [Side.eq_opp_of_ne hside] at heq
    exact h.ne_child_opp hne heq
  · rintro rfl
    exact h.context.2.1.symm

/-- The side the source computes. -/
theorem Focus.side_eq {f : Frame Addr} (h : Focus m (f :: ctx) t p)
    (hne : p ≠ nil ∨ m.child f.side.opp f.label ≠ nil) :
    (if p = m.child .left f.label then Side.left else Side.right) = f.side := by
  by_cases hleft : p = m.child .left f.label
  · rw [if_pos hleft, (h.eq_child_iff hne .left).mp hleft]
  · rw [if_neg hleft]
    cases hside : f.side with
    | left => exact absurd ((h.eq_child_iff hne .left).mpr hside.symm) hleft
    | right => rfl

/-- The frame above a hole, and what does not repeat in it. Repainting a node or rewriting its links
leaves the parts alone in which it does not occur, and these are the facts that say so. -/
structure OneFrame (t : BinaryTree Addr) (p : Addr) (b : BinaryTree Addr) (ctx : Context Addr) :
    Prop where
  p_t : p ∉ inorder t
  p_b : p ∉ inorder b
  p_ctx : p ∉ labels ctx
  b_t : ∀ a ∈ inorder b, a ∉ inorder t
  b_ctx : ∀ a ∈ inorder b, a ∉ labels ctx
  b_nodup : (inorder b).Nodup

theorem Focus.oneFrame {f : Frame Addr} (h : Focus m (f :: ctx) t p) :
    OneFrame t f.label f.sibling ctx := by
  have hnd := h.nodup
  simp only [plug_cons, nodup_plug_iff, nodup_branch_iff, mem_inorder_branch] at hnd
  obtain ⟨⟨hpt, hpb, -, hndb, htb⟩, -, hctx⟩ := hnd
  exact ⟨hpt, hpb, hctx _ (.inl rfl), fun a ha hat => htb a hat ha,
    fun a ha => hctx a (.inr (.inr ha)), hndb⟩

/-- The two frames above a hole, and what does not repeat among them. An insertion writes to the
parent and the grandparent, and a deletion to the parent and the sibling, which is the root of its
frame. -/
structure TwoFrames (t : BinaryTree Addr) (p g : Addr) (b u : BinaryTree Addr)
    (ctx : Context Addr) : Prop where
  lower : OneFrame t p b ctx
  p_u : p ∉ inorder u
  p_g : p ≠ g
  g_t : g ∉ inorder t
  g_b : g ∉ inorder b
  g_u : g ∉ inorder u
  g_ctx : g ∉ labels ctx
  u_t : ∀ a ∈ inorder u, a ∉ inorder t
  u_b : ∀ a ∈ inorder u, a ∉ inorder b
  u_ctx : ∀ a ∈ inorder u, a ∉ labels ctx
  u_nodup : (inorder u).Nodup

theorem Focus.twoFrames {f g : Frame Addr} (h : Focus m (f :: g :: ctx) t p) :
    TwoFrames t f.label g.label f.sibling g.sibling ctx := by
  obtain ⟨hpt, hpb, hpctx, hbt, hbctx, hndb⟩ := h.oneFrame
  obtain ⟨hg, hgu, hgctx, hu, huctx, hndu⟩ := h.up.oneFrame
  simp only [mem_labels_cons, mem_inorder_branch, not_or] at hpctx hbctx hg hu
  exact ⟨⟨hpt, hpb, hpctx.2.2, hbt, fun a ha => (hbctx a ha).2.2, hndb⟩, hpctx.2.1, hpctx.1,
    hg.2.1, hg.2.2, hgu, hgctx, fun a ha => (hu a ha).2.1, fun a ha => (hu a ha).2.2, huctx, hndu⟩

/-! ## Painting the root -/

theorem root_color {T : BinaryTree Addr} (h : Focus m [] T m.root)
    (ht : Balanced m.color c n T) (hnil : m.color nil = .black) : m.color m.root = c :=
  h.tree.color_eq ht hnil

/-- Painting the root of a red-black tree black changes nothing. Both fixups end with this
assignment, whether or not it is needed. -/
theorem isRedBlack_paint {T : BinaryTree Addr} (h : Focus m [] T m.root)
    (ht : Balanced m.color .black n T) (hnil : m.color nil = .black) :
    IsRedBlack (m.setColor m.root .black) (inorder T) := by
  have hcolor : (m.setColor m.root .black).color = m.color := by
    rw [Links.setColor_color, ← root_color h ht hnil, Function.update_eq_self]
  exact ⟨T, h.setColor _ _, rfl, ⟨n, hcolor ▸ ht⟩, hcolor ▸ hnil⟩

/-- Painting a red subtree black, where the context takes one black node more. This is how a
deletion ends at a red node: the colour makes up for the black node that is gone. -/
theorem isRedBlack_paint_sub (h : Focus m ctx t z) (ht : Balanced m.color .red n t)
    (hctx : Fits m.color .black (n + 1) ctx) (hnil : m.color nil = .black) :
    IsRedBlack (m.setColor z .black) (inorder (plug ctx t)) := by
  obtain ⟨a, near, far, rfl⟩ := ht.exists_branch .left (.inl rfl)
  obtain rfl := h.address
  obtain ⟨hnd, -, hdisj⟩ := nodup_plug_iff.mp h.nodup
  rw [nodup_branch_iff] at hnd
  have hz : nil ≠ z := h.ne_nil.symm
  rcases ht.of_branch with ⟨-, -, hnear, hfar⟩ | ⟨hc, -⟩
  · have hbal : Balanced (Function.update m.color z .black) .black (n + 1)
        (branch .left z near far) :=
      Balanced.black_branch .left (Function.update_self _ _ _)
        ((balanced_update hnd.1 _).mpr hnear) ((balanced_update hnd.2.1 _).mpr hfar)
    obtain ⟨k, hk⟩ := ((fits_update (hdisj z (by simp)) _).mpr hctx).plug hbal
    exact ⟨_, (h.setColor z .black).top, rfl, ⟨k, hk⟩, (Function.update_of_ne hz _ _).trans hnil⟩
  · cases hc

/-! ## Insertion -/

/-- A black parent ends the loop, the sentinel above the root included. -/
theorem rbInsertFixup_exit (fuel : ℕ) (h : m.color (m.parent z) ≠ .red) :
    m.rbInsertFixup (fuel + 1) z = some (m.setColor m.root .black) := by
  rw [Links.rbInsertFixup, if_neg h]

/-- A red uncle: the two reds trade places with their parent. The grandparent is red afterwards and
is the next node in focus, so the defect has moved up by two. -/
theorem insertFixupSide_recolor {f g : Frame Addr} (h : Focus m (f :: g :: ctx) t z)
    (ht : Balanced m.color .red n t) (hf : Balanced m.color .black n f.sibling)
    (hu : Balanced m.color .red n g.sibling) (hctx : Fits m.color .black (n + 1) ctx)
    (hnil : m.color nil = .black) :
    let res := Links.insertFixupSide g.side m z
    res.2 = g.label ∧ Focus res.1 ctx (plug [f, g] t) g.label ∧
      Balanced res.1.color .red (n + 1) (plug [f, g] t) ∧ Fits res.1.color .black (n + 1) ctx ∧
      res.1.color nil = .black := by
  intro res
  have hz : z ≠ nil := h.tree.ne_nil_of_pos ht (.inl rfl)
  have hparz : m.parent z = f.label := h.parent_of_ne_nil hz
  have hparf : m.parent f.label = g.label := h.up.parent_eq
  obtain ⟨-, -, -, hsib, -⟩ := h.up.context
  obtain ⟨y, near, far, hy⟩ := hu.exists_branch .left (.inl rfl)
  have hchildy : m.child g.side.opp g.label = y := by
    rw [hy] at hsib
    exact hsib.1
  have hcolory : m.color y = .red := (hy ▸ hu).color_eq
  have hres : res = (((m.setColor f.label .black).setColor y .black).setColor g.label .red,
      g.label) := by
    simp only [res, Links.insertFixupSide, hparz, hparf, hchildy, if_pos hcolory,
      Links.setColor_parent]
  obtain ⟨⟨hpt, hpb, hpctx, -⟩, hpu, hpg, hgt, hgb, hgu, hgctx, hut, hub, huctx, hndu⟩ :=
    h.twoFrames
  have hyu : y ∈ inorder g.sibling := by simp [hy]
  have hgy : g.label ≠ y := fun heq => hgu (heq ▸ hyu)
  have hpy : f.label ≠ y := fun heq => hpu (heq ▸ hyu)
  rw [hres]
  refine ⟨rfl, ((h.up.up.setColor _ _).setColor _ _).setColor _ _, ?_, ?_, ?_⟩
  · have hkeep : ∀ {c : Color} {k : ℕ} {s : BinaryTree Addr}, g.label ∉ inorder s →
        y ∉ inorder s → f.label ∉ inorder s → Balanced m.color c k s →
        Balanced (Function.update (Function.update (Function.update m.color f.label .black)
          y .black) g.label .red) c k s := by
      intro c k s hg hy hf hs
      rwa [balanced_update hg, balanced_update hy, balanced_update hf]
    -- the uncle, repainted
    have hu' : Balanced (Function.update m.color y .black) .black (n + 1) g.sibling := by
      rw [hy, nodup_branch_iff] at hndu
      obtain ⟨hyn, hyf, -⟩ := hndu
      rcases (hy ▸ hu).of_branch with ⟨-, -, hnear, hfar⟩ | ⟨hc, -⟩
      · rw [hy]
        exact Balanced.black_branch .left (Function.update_self _ _ _)
          ((balanced_update hyn _).mpr hnear) ((balanced_update hyf _).mpr hfar)
      · cases hc
    simp only [Links.setColor_color, plug_cons, plug_nil]
    have hp : Function.update (Function.update (Function.update m.color f.label .black) y .black)
        g.label .red f.label = .black := by
      rw [Function.update_of_ne hpg, Function.update_of_ne hpy, Function.update_self]
    refine Balanced.red_branch _ (Function.update_self _ _ _)
      (Balanced.black_branch _ hp (hkeep hgt (hut y hyu) hpt ht) (hkeep hgb (hub y hyu) hpb hf)) ?_
    rw [balanced_update hgu, Function.update_comm hpy, balanced_update hpu]
    exact hu'
  · simp only [Links.setColor_color]
    rwa [fits_update hgctx, fits_update (huctx y hyu), fits_update hpctx]
  · have hyne : nil ≠ y := fun heq => hsib.nil_notMem (heq ▸ hyu)
    simp only [Links.setColor_color]
    rwa [Function.update_of_ne h.up.context.1.symm, Function.update_of_ne hyne,
      Function.update_of_ne h.context.1.symm]

/-- The last rotation of an insertion: the parent moves up between the node and the grandparent. It
is black then and the two others are red, so nothing above it can be wrong. -/
theorem insertFixup_outer {side : Side} {p g : Addr} {b u : BinaryTree Addr}
    (h : Focus m (⟨side, p, b⟩ :: ⟨side, g, u⟩ :: ctx) t z)
    (ht : Balanced m.color .red n t) (hb : Balanced m.color .black n b)
    (hu : Balanced m.color .black n u) (hctx : Fits m.color .black (n + 1) ctx)
    (hnil : m.color nil = .black) :
    let m' := Links.rotate side.opp ((m.setColor p .black).setColor g .red) g
    m'.color (m'.parent z) = .black ∧ IsRedBlack (m'.setColor m'.root .black)
      (inorder (plug (⟨side, p, b⟩ :: ⟨side, g, u⟩ :: ctx) t)) := by
  intro m'
  have hz : z ≠ nil := h.tree.ne_nil_of_pos ht (.inl rfl)
  obtain ⟨⟨hpt, hpb, hpctx, -⟩, hpu, hpg, hgt, hgb, hgu, hgctx, -⟩ := h.twoFrames
  have hfocus : Focus ((m.setColor p .black).setColor g .red) ctx
      (branch side.opp g u (branch side.opp p b t)) g := by
    rw [branch_opp, branch_opp]
    exact (h.up.up.setColor _ _).setColor _ _
  obtain ⟨hrot, hcolor, hparnil⟩ := rotate_focus hfocus
  have hm'color : m'.color = Function.update (Function.update m.color p .black) g .red := hcolor
  have hpblack : m'.color p = .black := by
    rw [hm'color, Function.update_of_ne hpg, Function.update_self]
  have hnil' : m'.color nil = .black := by
    have hp : nil ≠ p := h.context.1.symm
    have hg : nil ≠ g := h.up.context.1.symm
    rwa [hm'color, Function.update_of_ne hg, Function.update_of_ne hp]
  have hkeep : ∀ {c : Color} {k : ℕ} {s : BinaryTree Addr}, g ∉ inorder s → p ∉ inorder s →
      Balanced m.color c k s → Balanced m'.color c k s := by
    intro c k s hg hp hs
    rwa [hm'color, balanced_update hg, balanced_update hp]
  have hgred : m'.color g = .red := by rw [hm'color, Function.update_self]
  have hbal : Balanced m'.color .black (n + 1) (branch side.opp p (branch side.opp g u b) t) :=
    Balanced.black_branch _ hpblack
      (Balanced.red_branch _ hgred (hkeep hgu hpu hu) (hkeep hgb hpb hb)) (hkeep hgt hpt ht)
  have hfits : Fits m'.color .black (n + 1) ctx := by
    rwa [hm'color, fits_update hgctx, fits_update hpctx]
  obtain ⟨k, hk⟩ := hfits.plug hbal
  refine ⟨?_, ?_⟩
  · have hfoc : Focus m' ctx (branch side p t (branch side.opp g u b)) p := by
      rw [← branch_opp]
      exact hrot
    have hq : m'.child side p = z := hfoc.down.tree.address_unique h.tree
    rw [← hq, hfoc.down.parent_of_ne_nil (hq ▸ hz)]
    exact hpblack
  · have horder := inorder_plug_congr ctx (inorder_rotate side.opp g p u b t)
    have hpaint := isRedBlack_paint hrot.top hk hnil'
    rw [horder, branch_opp, branch_opp] at hpaint
    exact hpaint

/-- A black uncle: one or two rotations finish the insertion. A node on the inner side is first
rotated above its parent, after which the two have changed names and the outer case is left. -/
theorem insertFixupSide_rotate {f g : Frame Addr} (h : Focus m (f :: g :: ctx) t z)
    (ht : Balanced m.color .red n t) (hred : m.color f.label = .red)
    (hf : Balanced m.color .black n f.sibling)
    (hu : Balanced m.color .black n g.sibling) (hctx : Fits m.color .black (n + 1) ctx)
    (hnil : m.color nil = .black) :
    let res := Links.insertFixupSide g.side m z
    res.1.color (res.1.parent res.2) = .black ∧
      IsRedBlack (res.1.setColor res.1.root .black) (inorder (plug (f :: g :: ctx) t)) := by
  intro res
  have hz : z ≠ nil := h.tree.ne_nil_of_pos ht (.inl rfl)
  have hparz : m.parent z = f.label := h.parent_of_ne_nil hz
  have hparf : m.parent f.label = g.label := h.up.parent_eq
  obtain ⟨-, -, -, hsib, -⟩ := h.up.context
  have hcolory : m.color (m.child g.side.opp g.label) ≠ .red := by
    rw [hsib.color_eq hu hnil]
    simp
  have htest : z = m.child g.side.opp f.label ↔ g.side.opp = f.side :=
    h.eq_child_iff (.inl hz) g.side.opp
  rcases f with ⟨fside, p, b⟩
  rcases g with ⟨side, g, u⟩
  simp only at hparz hparf hcolory htest
  by_cases hinner : side.opp = fside
  · -- the node is an inner grandchild: rotate it outwards first
    subst hinner
    obtain ⟨z', near, far, rfl⟩ := ht.exists_branch side (.inl rfl)
    obtain rfl := h.address
    have hfocus : Focus m (⟨side, g, u⟩ :: ctx) (branch side p b (branch side z near far)) p := by
      rw [← branch_opp]
      exact h.up
    obtain ⟨hrot, hcolor, hparnil⟩ := rotate_focus hfocus
    have hp : (Links.rotate side m p).child side z = p := hrot.down.address
    have hdown := hp ▸ hrot.down
    have hparp : (Links.rotate side m p).parent p = z := hdown.parent_eq
    have hparz' : (Links.rotate side m p).parent z = g := hrot.parent_eq
    obtain ⟨-, hzred, hnear, hfar⟩ : _ ∧ m.color z = .red ∧ Balanced m.color .black n near ∧
        Balanced m.color .black n far := by
      rcases ht.of_branch with hred | ⟨hc, -⟩
      exacts [hred, by cases hc]
    have hres : res = (Links.rotate side.opp
        (((Links.rotate side m p).setColor z .black).setColor g .red) g, p) := by
      simp only [res, Links.insertFixupSide, hparz, hparf, if_neg hcolory, htest, if_true, hparp,
        hparz', Links.setColor_parent]
    obtain ⟨hblack, hrb⟩ := insertFixup_outer hdown
      (by rw [hcolor]; exact Balanced.red_branch side hred hf hnear) (hcolor ▸ hfar) (hcolor ▸ hu)
      (hcolor ▸ hctx) (hcolor ▸ hnil)
    have horder := inorder_plug_congr (⟨side, g, u⟩ :: ctx) (inorder_rotate side p z b near far)
    rw [hres]
    refine ⟨hblack, ?_⟩
    rw [plug_cons, branch_opp, ← horder]
    exact hrb
  · have hside : fside = side := by
      rw [Side.eq_opp_of_ne (Ne.symm hinner), Side.opp_opp]
    subst hside
    have hres : res = (Links.rotate fside.opp ((m.setColor p .black).setColor g .red) g, z) := by
      simp only [res, Links.insertFixupSide, hparz, hparf, if_neg hcolory, htest,
        Side.opp_ne, if_false, Links.setColor_parent]
    rw [hres]
    exact insertFixup_outer h ht hf hu hctx hnil

/-- **The insertion fixup**, by induction on the fuel, which exceeds the length of the path up. The
nodes are the same in the same order, whatever is done to them. -/
theorem rbInsertFixup_spec (fuel : ℕ) (h : Focus m ctx t z) (ht : Balanced m.color .red n t)
    (hctx : Fits m.color .black n ctx) (hnil : m.color nil = .black) (hfuel : ctx.length < fuel) :
    ∃ m', m.rbInsertFixup fuel z = some m' ∧ IsRedBlack m' (inorder (plug ctx t)) := by
  induction fuel generalizing m ctx t z n with
  | zero => exact absurd hfuel (Nat.not_lt_zero _)
  | succ fuel ih =>
    have hz : z ≠ nil := h.tree.ne_nil_of_pos ht (.inl rfl)
    have hparz := h.parent_of_ne_nil hz
    cases hctx with
    | root =>
      have hparent : m.color (m.parent z) ≠ .red := by
        rw [hparz]
        exact fun hred => by simp [ctxParent, hnil] at hred
      have hroot : m.root = z := h.context
      have hpaint := isRedBlack_paint_sub h ht .root hnil
      rw [← hroot] at hpaint
      exact ⟨_, rbInsertFixup_exit fuel hparent, hpaint⟩
    | @black f ctx _ _ cs ha hs hctx =>
      have hparent : m.color (m.parent z) ≠ .red := by
        rw [hparz]
        exact fun hred => by simp [ctxParent, ha] at hred
      obtain ⟨k, hk⟩ := (Fits.black ha hs hctx : Fits m.color .red n (f :: ctx)).plug ht
      exact ⟨_, rbInsertFixup_exit fuel hparent, isRedBlack_paint h.top hk hnil⟩
    | @red f ctx _ ha hs hctx =>
      -- a red node has a parent, and a black one
      cases hctx with
      | @black g ctx _ _ cu hg hu hctx =>
        have hf : f.label ≠ nil := h.up.ne_nil
        have hparf : m.parent f.label = g.label := h.up.parent_eq
        have hside : (if f.label = m.child .left g.label then Side.left else Side.right) = g.side :=
          h.up.side_eq (.inl hf)
        have hparent : m.parent z = f.label := hparz
        have hstep : m.rbInsertFixup (fuel + 1) z = Links.rbInsertFixup fuel
            (Links.insertFixupSide g.side m z).1 (Links.insertFixupSide g.side m z).2 := by
          rw [Links.rbInsertFixup, hparent, if_pos ha, hparf]
          simp only [hside]
        simp only [List.length_cons] at hfuel
        rw [hstep]
        cases cu with
        | red =>
          obtain ⟨hz', hfocus, hbal, hfits, hnil'⟩ := insertFixupSide_recolor h ht hs hu hctx hnil
          rw [hz']
          have hrest := ih hfocus hbal hfits hnil' (by omega)
          exact hrest
        | black =>
          obtain ⟨hblack, hrb⟩ := insertFixupSide_rotate h ht ha hs hu hctx hnil
          obtain ⟨fuel, rfl⟩ : ∃ k, fuel = k + 1 := ⟨fuel - 1, by omega⟩
          exact ⟨_, rbInsertFixup_exit fuel (by rw [hblack]; simp), hrb⟩

/-! ## Deletion -/

/-- The loop of `rb_delete_fixup` is about to end with a red-black tree: its test fails at the node
in focus, and painting that node black is all that is left to do. -/
def DeleteDone (m : Links) (x : Addr) (l : List Addr) : Prop :=
  (x = m.root ∨ m.color x = .red) ∧ IsRedBlack (m.setColor x .black) l

/-- How the colour of the parent fits the subtree that lacks a black node. The two cases are counted
so that the parent with both its subtrees, once these have `n` black nodes each, is short by one. -/
def ParentFits (color : Addr → Color) (n : ℕ) (p : Addr) (ctx : Context Addr) : Prop :=
  (color p = .red ∧ Fits color .red (n + 1) ctx) ∨
    (color p = .black ∧ Fits color .black (n + 2) ctx)

/-- The last rotation of a deletion, with a red far nephew. The sibling takes the colour of the
parent, and the parent and the far nephew are black below it, so that each side has one black node
more. -/
theorem deleteFixup_final {side : Side} {p w : Addr} {near far : BinaryTree Addr} {cn : Color}
    (h : Focus m (⟨side, p, branch side w near far⟩ :: ctx) t z)
    (ht : Balanced m.color .black n t) (hnear : Balanced m.color cn n near)
    (hfar : Balanced m.color .red n far) (hctx : ParentFits m.color n p ctx)
    (hnil : m.color nil = .black) :
    let m' := Links.rotate side (((m.setColor w (m.color p)).setColor p .black).setColor
      (m.child side.opp w) .black) p
    DeleteDone m' m'.root (inorder (plug (⟨side, p, branch side w near far⟩ :: ctx) t)) := by
  intro m'
  obtain ⟨hpt, hpb, hpctx, hbt, hbctx, hndb⟩ := h.oneFrame
  simp only [mem_inorder_branch, not_or] at hpb hbt hbctx
  rw [nodup_branch_iff] at hndb
  obtain ⟨hwn, hwf, -, hndf, hnf⟩ := hndb
  obtain ⟨hpw, hpn, hpf⟩ := hpb
  obtain ⟨hp, -, -, hsib, -⟩ := h.context
  obtain ⟨-, hw, -, -, hfarlink⟩ := linked_branch.mp hsib
  -- the far nephew
  obtain ⟨v, fn, ff, rfl⟩ := hfar.exists_branch side (.inl rfl)
  have hv : m.child side.opp w = v := (linked_branch.mp hfarlink).1
  have hvne : v ≠ nil := (linked_branch.mp hfarlink).2.1
  simp only [mem_inorder_branch, not_or] at hwf hpf hbt hbctx hnf
  rw [nodup_branch_iff] at hndf
  obtain ⟨hvfn, hvff, -⟩ := hndf
  have hvn : v ∉ inorder near := fun hmem => (hnf v hmem).1 rfl
  have hvt : v ∉ inorder t := hbt v (.inr (.inr (.inl rfl)))
  have hvctx : v ∉ labels ctx := hbctx v (.inr (.inr (.inl rfl)))
  have hwt : w ∉ inorder t := hbt w (.inl rfl)
  have hwctx : w ∉ labels ctx := hbctx w (.inl rfl)
  have hpw' : w ≠ p := fun heq => hpw heq.symm
  have hfocus : Focus (((m.setColor w (m.color p)).setColor p .black).setColor v .black) ctx
      (branch side p t (branch side w near (branch side v fn ff))) p :=
    ((h.up.setColor _ _).setColor _ _).setColor _ _
  obtain ⟨hrot, hcolor, -⟩ := rotate_focus hfocus
  have hm' : m' = Links.rotate side
      (((m.setColor w (m.color p)).setColor p .black).setColor v .black) p := by
    simp only [m', hv]
  rw [← hm'] at hrot hcolor
  have hcolor' : m'.color = Function.update (Function.update (Function.update m.color w (m.color p))
      p .black) v .black := hcolor
  have hwc : m'.color w = m.color p := by
    rw [hcolor', Function.update_of_ne hwf.1, Function.update_of_ne hpw', Function.update_self]
  have hpc : m'.color p = .black := by
    rw [hcolor', Function.update_of_ne hpf.1, Function.update_self]
  have hvc : m'.color v = .black := by rw [hcolor', Function.update_self]
  have hnil' : m'.color nil = .black := by
    rwa [hcolor', Function.update_of_ne hvne.symm, Function.update_of_ne (Ne.symm hp),
      Function.update_of_ne hw.symm]
  have hkeep : ∀ {c : Color} {k : ℕ} {s : BinaryTree Addr}, v ∉ inorder s → p ∉ inorder s →
      w ∉ inorder s → Balanced m.color c k s → Balanced m'.color c k s := by
    intro c k s hv hp hw hs
    rwa [hcolor', balanced_update hv, balanced_update hp, balanced_update hw]
  have hleft : Balanced m'.color .black (n + 1) (branch side p t near) :=
    Balanced.black_branch _ hpc (hkeep hvt hpt hwt ht) (hkeep hvn hpn hwn hnear)
  have hright : Balanced m'.color .black (n + 1) (branch side v fn ff) := by
    rcases hfar.of_branch with ⟨-, -, hfn, hff⟩ | ⟨hc, -⟩
    · exact Balanced.black_branch _ hvc (hkeep hvfn hpf.2.1 hwf.2.1 hfn)
        (hkeep hvff hpf.2.2 hwf.2.2 hff)
    · cases hc
  have hfits : ∀ {c k}, Fits m.color c k ctx → Fits m'.color c k ctx := by
    intro c k hck
    rwa [hcolor', fits_update hvctx, fits_update hpctx, fits_update hwctx]
  obtain ⟨k, hk⟩ : ∃ k, Balanced m'.color .black k
      (plug ctx (branch side w (branch side p t near) (branch side v fn ff))) := by
    rcases hctx with ⟨hpred, hctx⟩ | ⟨hpblack, hctx⟩
    · exact (hfits hctx).plug (hleft.red_branch side (hwc.trans hpred) hright)
    · exact (hfits hctx).plug (hleft.black_branch side (hwc.trans hpblack) hright)
  have horder := inorder_plug_congr ctx
    (inorder_rotate side p w t near (branch side v fn ff))
  have hpaint := isRedBlack_paint hrot.top hk hnil'
  rw [horder] at hpaint
  exact ⟨.inl rfl, hpaint⟩

/-- A red near nephew: it is rotated above the sibling, and becomes the black parent of a red far
nephew. -/
theorem deleteFixupRest_inner {side : Side} {p w : Addr} {near far : BinaryTree Addr}
    (h : Focus m (⟨side, p, branch side w near far⟩ :: ctx) t z) (hpar : m.parent z = p)
    (ht : Balanced m.color .black n t) (hnear : Balanced m.color .red n near)
    (hfar : Balanced m.color .black n far) (hctx : ParentFits m.color n p ctx)
    (hnil : m.color nil = .black) :
    let res := Links.deleteFixupRest side m z (m.child side.opp p)
    DeleteDone res.1 res.2 (inorder (plug (⟨side, p, branch side w near far⟩ :: ctx) t)) := by
  intro res
  obtain ⟨hp, -, -, hsib, -⟩ := h.context
  obtain ⟨hw, hwne, -, hnearlink, hfarlink⟩ := linked_branch.mp hsib
  simp only at hw hwne hnearlink hfarlink hp
  have hcn := hnearlink.color_eq hnear hnil
  have hcf := hfarlink.color_eq hfar hnil
  obtain ⟨y, b, d, rfl⟩ := hnear.exists_branch side.opp (.inl rfl)
  obtain ⟨hy, hyne, -⟩ := linked_branch.mp hnearlink
  rw [hy] at hcn
  obtain ⟨hb, hd⟩ : Balanced m.color .black n b ∧ Balanced m.color .black n d := by
    rcases hnear.of_branch with ⟨-, -, hb, hd⟩ | ⟨hc, -⟩
    exacts [⟨hb, hd⟩, by cases hc]
  obtain ⟨hpt, hpb, hpctx, hbt, hbctx, hndb⟩ := h.oneFrame
  simp only [mem_inorder_branch, not_or] at hpt hpb hpctx hbt hbctx
  simp only [nodup_branch_iff, mem_inorder_branch, not_or] at hndb
  obtain ⟨⟨hwy, hwb, hwd⟩, hwf, ⟨hyb, hyd, -⟩, -, hyfar⟩ := hndb
  have hyf : y ∉ inorder far := hyfar y (.inl rfl)
  have hyt : y ∉ inorder t := hbt y (.inr (.inl (.inl rfl)))
  have hwt : w ∉ inorder t := hbt w (.inl rfl)
  have hyctx : y ∉ labels ctx := hbctx y (.inr (.inl (.inl rfl)))
  have hwctx : w ∉ labels ctx := hbctx w (.inl rfl)
  -- the rotation, seen from the sibling
  have hdown : Focus m (⟨side.opp, p, t⟩ :: ctx)
      (branch side.opp w far (branch side.opp y b d)) w := by
    have hup := h.up
    rw [← branch_opp side p] at hup
    have hdown := hup.down
    rw [hw, ← branch_opp side w] at hdown
    exact hdown
  obtain ⟨m₂, hm₂⟩ : ∃ m₂, m₂ =
      Links.rotate side.opp ((m.setColor y .black).setColor w .red) w := ⟨_, rfl⟩
  obtain ⟨hrot, hcolor, hparnil⟩ := rotate_focus ((hdown.setColor y .black).setColor w .red)
  rw [← hm₂] at hrot hcolor hparnil
  have hchildp : m₂.child side.opp p = y := hrot.context.2.1
  have hback : Focus m₂ (⟨side, p, branch side y d (branch side w b far)⟩ :: ctx) t z := by
    have hup := hrot.up
    simp only [branch_opp] at hup
    have hfoc := hup.down
    rwa [hfoc.tree.address_unique h.tree] at hfoc
  have hparz : m₂.parent z = p := by
    by_cases hz : z = nil
    · rw [hz, hparnil, Links.setColor_parent, Links.setColor_parent, ← hz, hpar]
    · exact hback.parent_of_ne_nil hz
  have hcolor₂ : m₂.color = Function.update (Function.update m.color y .black) w .red := hcolor
  have hres : res = (Links.rotate side (((m₂.setColor y (m₂.color p)).setColor p .black).setColor
      (m₂.child side.opp y) .black) p, (Links.rotate side (((m₂.setColor y (m₂.color p)).setColor p
        .black).setColor (m₂.child side.opp y) .black) p).root) := by
    simp only [res, Links.deleteFixupRest, hw, hcn, hcf, reduceCtorEq, false_and, if_false, if_true,
      hy, ← hm₂, hparz, hchildp, Links.setColor_parent, Links.setColor_child]
  have hpy : p ≠ y := hpb.2.1.1
  have hpw : p ≠ w := hpb.1
  have hpcolor : m₂.color p = m.color p := by
    rw [hcolor₂, Function.update_of_ne hpw, Function.update_of_ne hpy]
  have hfits : ∀ {c k}, Fits m.color c k ctx → Fits m₂.color c k ctx := by
    intro c k hck
    rwa [hcolor₂, fits_update hwctx, fits_update hyctx]
  have hctx₂ : ParentFits m₂.color n p ctx := by
    rw [ParentFits, hpcolor]
    exact hctx.imp (And.imp_right hfits) (And.imp_right hfits)
  have hfar₂ : Balanced m₂.color .red n (branch side w b far) := by
    refine Balanced.red_branch side ?_ ?_ ?_
    · rw [hcolor₂, Function.update_self]
    · rwa [hcolor₂, balanced_update hwb, balanced_update hyb]
    · rwa [hcolor₂, balanced_update hwf, balanced_update hyf]
  have hd₂ : Balanced m₂.color .black n d := by
    rwa [hcolor₂, balanced_update hwd, balanced_update hyd]
  have ht₂ : Balanced m₂.color .black n t := by
    rwa [hcolor₂, balanced_update hwt, balanced_update hyt]
  have hnil₂ : m₂.color nil = .black := by
    rwa [hcolor₂, Function.update_of_ne hwne.symm, Function.update_of_ne hyne.symm]
  have hfinal := deleteFixup_final hback ht₂ hd₂ hfar₂ hctx₂ hnil₂
  have horder := inorder_plug_congr (⟨side.opp, p, t⟩ :: ctx) (inorder_rotate side.opp w y far b d)
  simp only [plug_cons, branch_opp] at horder
  rw [hres]
  rw [plug_cons, horder] at hfinal
  rw [plug_cons, branch_opp]
  exact hfinal

/-- Two black nephews: with the sibling red, a red parent ends the loop by turning black, and the
lack moves up over a black one. The source does not distinguish the two, since the test of the loop
is what finds a red parent. -/
theorem deleteFixup_recolor {side : Side} {p w : Addr} {near far : BinaryTree Addr}
    (h : Focus m (⟨side, p, branch side w near far⟩ :: ctx) t z)
    (ht : Balanced m.color .black n t) (hnear : Balanced m.color .black n near)
    (hfar : Balanced m.color .black n far) (hctx : ParentFits m.color n p ctx)
    (hnil : m.color nil = .black) :
    DeleteDone (m.setColor w .red) p
        (inorder (plug (⟨side, p, branch side w near far⟩ :: ctx) t)) ∨
      m.color p = .black ∧
        Focus (m.setColor w .red) ctx (plug [⟨side, p, branch side w near far⟩] t) p ∧
        Balanced (m.setColor w .red).color .black (n + 1)
          (plug [⟨side, p, branch side w near far⟩] t) ∧
        Fits (m.setColor w .red).color .black (n + 2) ctx ∧
        (m.setColor w .red).color nil = .black := by
  obtain ⟨hp, -, -, hsib, -⟩ := h.context
  obtain ⟨-, hwne, -⟩ := linked_branch.mp hsib
  obtain ⟨hpt, hpb, hpctx, hbt, hbctx, hndb⟩ := h.oneFrame
  have hps := hpb
  simp only [mem_inorder_branch, not_or] at hpb hbt hbctx
  rw [nodup_branch_iff] at hndb
  obtain ⟨hwn, hwf, -⟩ := hndb
  have hwp : p ≠ w := hpb.1
  have hs' : Balanced (Function.update m.color w .red) .red n (branch side w near far) :=
    Balanced.red_branch side (Function.update_self _ _ _)
      ((balanced_update hwn _).mpr hnear) ((balanced_update hwf _).mpr hfar)
  have ht' : Balanced (Function.update m.color w .red) .black n t :=
    (balanced_update (hbt w (.inl rfl)) _).mpr ht
  have hnil' : Function.update m.color w .red nil = .black := by
    rwa [Function.update_of_ne hwne.symm]
  rcases hctx with ⟨hpred, hctx⟩ | ⟨hpblack, hctx⟩
  · have hpred' : Function.update m.color w .red p = .red := by
      rwa [Function.update_of_ne hwp]
    refine .inl ⟨.inr hpred', ?_⟩
    have hbal : Balanced (Function.update (Function.update m.color w .red) p .black) .black
        (n + 1) (branch side p t (branch side w near far)) :=
      Balanced.black_branch side (Function.update_self _ _ _)
        ((balanced_update hpt _).mpr ht') ((balanced_update hps _).mpr hs')
    have hfits : Fits (Function.update (Function.update m.color w .red) p .black) .black
        (n + 1) ctx := by
      rw [fits_update hpctx, fits_update (hbctx w (.inl rfl))]
      exact hctx.black_of
    obtain ⟨k, hk⟩ := hfits.plug hbal
    refine ⟨_, ((h.setColor w .red).setColor p .black).top, rfl, ⟨k, hk⟩, ?_⟩
    exact (Function.update_of_ne (Ne.symm hp) _ _).trans hnil'
  · refine .inr ⟨hpblack, h.up.setColor _ _, ?_, ?_, hnil'⟩
    · exact ht'.black_branch side ((Function.update_of_ne hwp _ _).trans hpblack) hs'
    · exact (fits_update (hbctx w (.inl rfl)) _).mpr hctx

/-- The part of the loop body after the sibling is known to be black, by the colours of the nephews.
-/
theorem deleteFixupRest_spec {f : Frame Addr} (h : Focus m (f :: ctx) t z)
    (hpar : m.parent z = f.label) (ht : Balanced m.color .black n t)
    (hs : Balanced m.color .black (n + 1) f.sibling) (hctx : ParentFits m.color n f.label ctx)
    (hnil : m.color nil = .black) :
    let res := Links.deleteFixupRest f.side m z (m.child f.side.opp f.label)
    DeleteDone res.1 res.2 (inorder (plug (f :: ctx) t)) ∨
      m.color f.label = .black ∧ res.2 = f.label ∧ Focus res.1 ctx (plug [f] t) f.label ∧
        Balanced res.1.color .black (n + 1) (plug [f] t) ∧ Fits res.1.color .black (n + 2) ctx ∧
        res.1.color nil = .black := by
  intro res
  rcases f with ⟨side, p, s⟩
  simp only at hpar hs hctx ⊢
  obtain ⟨w, near, far, rfl⟩ := hs.exists_branch side (.inr (Nat.succ_pos n))
  obtain ⟨hp, -, -, hsib, -⟩ := h.context
  obtain ⟨hw, hwne, -, hnearlink, hfarlink⟩ := linked_branch.mp hsib
  simp only at hw hwne hnearlink hfarlink hp
  obtain ⟨cn, cf, hnear, hfar⟩ : ∃ cn cf,
      Balanced m.color cn n near ∧ Balanced m.color cf n far := by
    rcases hs.of_branch with ⟨hc, -⟩ | ⟨-, -, k, cn, cf, hk, hnear, hfar⟩
    · cases hc
    · obtain rfl : n = k := Nat.succ.inj hk
      exact ⟨cn, cf, hnear, hfar⟩
  have hcn := hnearlink.color_eq hnear hnil
  have hcf := hfarlink.color_eq hfar hnil
  cases cf with
  | red =>
    -- a red far nephew: one rotation
    have hres : res = (Links.rotate side (((m.setColor w (m.color p)).setColor p .black).setColor
        (m.child side.opp w) .black) p, (Links.rotate side (((m.setColor w (m.color p)).setColor p
          .black).setColor (m.child side.opp w) .black) p).root) := by
      simp only [res, Links.deleteFixupRest, hw, hcn, hcf, hpar, reduceCtorEq, and_false, if_false,
        Links.setColor_parent, Links.setColor_child]
    rw [hres]
    exact .inl (deleteFixup_final h ht hnear hfar hctx hnil)
  | black =>
    cases cn with
    | black =>
      -- two black nephews: the sibling turns red, and the lack moves up
      have hres : res = (m.setColor w .red, p) := by
        simp only [res, Links.deleteFixupRest, hw, hcn, hcf, hpar, and_self, if_true]
      rw [hres]
      exact (deleteFixup_recolor h ht hnear hfar hctx hnil).imp_right
        fun ⟨hpblack, hmoved⟩ => ⟨hpblack, rfl, hmoved⟩
    | red =>
      -- a red near nephew: rotate it above the sibling first
      exact .inl (deleteFixupRest_inner h hpar ht hnear hfar hctx hnil)

/-- A red sibling: after a rotation the parent is red and the sibling black. So the rest of the body
ends the loop in every case, either by the red parent or by a rotation. -/
theorem deleteFixupSide_red {side : Side} {p : Addr} {s : BinaryTree Addr}
    (h : Focus m (⟨side, p, s⟩ :: ctx) t z) (hpar : m.parent z = p)
    (ht : Balanced m.color .black n t) (hs : Balanced m.color .red (n + 1) s)
    (hctx : Fits m.color .black (n + 2) ctx) (hnil : m.color nil = .black) :
    let res := Links.deleteFixupSide side m z
    DeleteDone res.1 res.2 (inorder (plug (⟨side, p, s⟩ :: ctx) t)) := by
  intro res
  obtain ⟨hp, -, -, hsib, -⟩ := h.context
  obtain ⟨w, near, far, rfl⟩ := hs.exists_branch side (.inl rfl)
  obtain ⟨hw, hwne, -⟩ := linked_branch.mp hsib
  obtain ⟨hwred, hnear, hfar⟩ : m.color w = .red ∧ Balanced m.color .black (n + 1) near ∧
      Balanced m.color .black (n + 1) far := by
    rcases hs.of_branch with ⟨-, hw, hnear, hfar⟩ | ⟨hc, -⟩
    exacts [⟨hw, hnear, hfar⟩, by cases hc]
  obtain ⟨hpt, hpb, hpctx, hbt, hbctx, hndb⟩ := h.oneFrame
  simp only [mem_inorder_branch, not_or] at hpt hpb hpctx hbt hbctx hw hwne hp
  simp only [nodup_branch_iff] at hndb
  obtain ⟨hwn, hwf, -⟩ := hndb
  have hwt : w ∉ inorder t := hbt w (.inl rfl)
  have hwctx : w ∉ labels ctx := hbctx w (.inl rfl)
  have hwp : w ≠ p := fun heq => hpb.1 heq.symm
  obtain ⟨m₂, hm₂⟩ : ∃ m₂, m₂ =
      Links.rotate side ((m.setColor w .black).setColor p .red) p := ⟨_, rfl⟩
  obtain ⟨hrot, hcolor, hparnil⟩ := rotate_focus ((h.up.setColor w .black).setColor p .red)
  rw [← hm₂] at hrot hcolor hparnil
  have hcolor₂ : m₂.color = Function.update (Function.update m.color w .black) p .red := hcolor
  have hdown : Focus m₂ (⟨side, p, near⟩ :: ⟨side, w, far⟩ :: ctx) t z := by
    have hfoc := hrot.down.down
    rwa [hfoc.tree.address_unique h.tree] at hfoc
  have hparz : m₂.parent z = p := by
    by_cases hz : z = nil
    · rw [hz, hparnil, Links.setColor_parent, Links.setColor_parent, ← hz, hpar]
    · exact hdown.parent_of_ne_nil hz
  have hres : res = Links.deleteFixupRest side m₂ z (m₂.child side.opp p) := by
    simp only [res, Links.deleteFixupSide, Links.deleteFixupSibling, Links.setColor_parent,
      hpar, hw, hwred, if_true, ← hm₂, hparz]
  have hpred : m₂.color p = .red := by rw [hcolor₂, Function.update_self]
  have hwblack : m₂.color w = .black := by
    rw [hcolor₂, Function.update_of_ne hwp, Function.update_self]
  have ht₂ : Balanced m₂.color .black n t := by
    rwa [hcolor₂, balanced_update hpt, balanced_update hwt]
  have hnear₂ : Balanced m₂.color .black (n + 1) near := by
    rwa [hcolor₂, balanced_update hpb.2.1, balanced_update hwn]
  have hfar₂ : Balanced m₂.color .black (n + 1) far := by
    rwa [hcolor₂, balanced_update hpb.2.2, balanced_update hwf]
  have hctx₂ : Fits m₂.color .black (n + 2) ctx := by
    rwa [hcolor₂, fits_update hpctx, fits_update hwctx]
  have hnil₂ : m₂.color nil = .black := by
    rwa [hcolor₂, Function.update_of_ne (Ne.symm hp), Function.update_of_ne (Ne.symm hwne)]
  have hfits : ParentFits m₂.color n p (⟨side, w, far⟩ :: ctx) :=
    .inl ⟨hpred, .black hwblack hfar₂ hctx₂⟩
  have horder := inorder_plug_congr ctx (inorder_rotate side p w t near far)
  rw [hres]
  rcases deleteFixupRest_spec hdown hparz ht₂ hnear₂ hfits hnil₂ with hdone | ⟨hblack', -⟩
  · simp only [plug_cons, horder] at hdone
    exact hdone
  · rw [hpred] at hblack'
    cases hblack'

/-- **One iteration of the deletion fixup**: it ends the loop, or moves the lack up by one. -/
theorem deleteFixupSide_spec {f : Frame Addr} (h : Focus m (f :: ctx) t z)
    (hpar : m.parent z = f.label) (ht : Balanced m.color .black n t)
    (hctx : Fits m.color .black (n + 1) (f :: ctx)) (hnil : m.color nil = .black) :
    let res := Links.deleteFixupSide f.side m z
    DeleteDone res.1 res.2 (inorder (plug (f :: ctx) t)) ∨
      res.2 = f.label ∧ Focus res.1 ctx (plug [f] t) f.label ∧
        Balanced res.1.color .black (n + 1) (plug [f] t) ∧ Fits res.1.color .black (n + 2) ctx ∧
        res.1.color nil = .black := by
  intro res
  rcases f with ⟨side, p, s⟩
  simp only at hpar
  obtain ⟨hp, -, -, hsib, -⟩ := h.context
  -- a black sibling goes on to the second part at once
  have hblack : Balanced m.color .black (n + 1) s → ParentFits m.color n p ctx →
      DeleteDone res.1 res.2 (inorder (plug (⟨side, p, s⟩ :: ctx) t)) ∨
        res.2 = p ∧ Focus res.1 ctx (plug [⟨side, p, s⟩] t) p ∧
          Balanced res.1.color .black (n + 1) (plug [⟨side, p, s⟩] t) ∧
          Fits res.1.color .black (n + 2) ctx ∧ res.1.color nil = .black := by
    intro hs hfits
    have hw : m.color (m.child side.opp p) ≠ .red := by
      rw [hsib.color_eq hs hnil]
      simp
    have hres : res = Links.deleteFixupRest side m z (m.child side.opp p) := by
      simp only [res, Links.deleteFixupSide, Links.deleteFixupSibling, hpar, if_neg hw]
    rw [hres]
    exact (deleteFixupRest_spec h hpar ht hs hfits hnil).imp_right And.right
  cases hctx with
  | red ha hs hctx => exact hblack hs (.inl ⟨ha, hctx⟩)
  | @black _ _ _ _ cs ha hs hctx =>
    cases cs with
    | black => exact hblack hs (.inr ⟨ha, hctx⟩)
    | red =>
      exact .inl (deleteFixupSide_red h hpar ht hs hctx hnil)

theorem LinkedCtx.root_mem {f : Frame Addr} {child : Side → Addr → Addr} {parent : Addr → Addr}
    {root : Addr} (h : LinkedCtx child parent root (f :: ctx) p) : root ∈ labels (f :: ctx) := by
  induction ctx generalizing f p with
  | nil =>
    have hroot : root = f.label := h.2.2.2.2
    simp [hroot]
  | cons g ctx ih => exact mem_labels_cons.mpr (.inr (.inr (ih h.2.2.2.2)))

/-- A hole below the root does not hold the root. -/
theorem Focus.ne_root {f : Frame Addr} (h : Focus m (f :: ctx) t z) : z ≠ m.root := by
  intro heq
  have hroot := h.context.root_mem
  rw [← heq] at hroot
  by_cases hz : z = nil
  · exact h.context.nil_notMem (hz ▸ hroot)
  · exact (nodup_plug_iff.mp h.nodup).2.2 z (h.tree.mem_of_ne_nil hz) hroot

theorem rbDeleteFixup_exit (fuel : ℕ) (h : z = m.root ∨ m.color z = .red) :
    m.rbDeleteFixup (fuel + 1) z = some (m.setColor z .black) := by
  rw [Links.rbDeleteFixup, if_neg]
  rintro ⟨hne, hblack⟩
  rcases h with h | h
  · exact hne h
  · rw [h] at hblack
    cases hblack

/-- **The deletion fixup**, by induction on the fuel, which exceeds the length of the path up by
two: one turn for each node of the path, and one more to find the loop at its end, also after the
rotations that set the focus to the root. -/
theorem rbDeleteFixup_spec (fuel : ℕ) (h : Focus m ctx t z) (hpar : m.parent z = ctxParent ctx)
    (ht : Balanced m.color c n t) (hctx : Fits m.color .black (n + 1) ctx)
    (hnil : m.color nil = .black) (hfuel : ctx.length + 1 < fuel) :
    ∃ m', m.rbDeleteFixup fuel z = some m' ∧ IsRedBlack m' (inorder (plug ctx t)) := by
  induction fuel generalizing m ctx t z n c with
  | zero => exact absurd hfuel (Nat.not_lt_zero _)
  | succ fuel ih =>
    have hcz := h.tree.color_eq ht hnil
    cases c with
    | red => exact ⟨_, rbDeleteFixup_exit fuel (.inr hcz), isRedBlack_paint_sub h ht hctx hnil⟩
    | black =>
      cases ctx with
      | nil =>
        have hroot : m.root = z := h.context
        refine ⟨_, rbDeleteFixup_exit fuel (.inl hroot.symm), ?_⟩
        have hpaint := isRedBlack_paint h.top ht hnil
        rwa [hroot] at hpaint
      | cons f ctx =>
        -- a node whose sibling has a black node more is on one side only
        have hsib : m.child f.side.opp f.label ≠ nil := by
          cases hctx with
          | red ha hs _ => exact h.context.2.2.2.1.ne_nil_of_pos hs (.inr (Nat.succ_pos n))
          | black ha hs _ => exact h.context.2.2.2.1.ne_nil_of_pos hs (.inr (Nat.succ_pos n))
        have hside : (if z = m.child .left f.label then Side.left else Side.right) = f.side :=
          h.side_eq (.inr hsib)
        have hparz : m.parent z = f.label := hpar
        have hstep : m.rbDeleteFixup (fuel + 1) z = Links.rbDeleteFixup fuel
            (Links.deleteFixupSide f.side m z).1 (Links.deleteFixupSide f.side m z).2 := by
          rw [Links.rbDeleteFixup, if_pos ⟨h.ne_root, hcz⟩, hparz]
          simp only [hside]
        simp only [List.length_cons] at hfuel
        rw [hstep]
        rcases deleteFixupSide_spec h hparz ht hctx hnil with hdone | ⟨hz, hfoc, hbal, hfits, hnil'⟩
        · obtain ⟨fuel, rfl⟩ : ∃ k, fuel = k + 1 := ⟨fuel - 1, by omega⟩
          exact ⟨_, rbDeleteFixup_exit fuel hdone.1, hdone.2⟩
        · rw [hz]
          have hrest := ih hfoc (hfoc.parent_of_ne_nil h.up.ne_nil) hbal hfits hnil' (by omega)
          exact hrest

end Tree

end OvaLib
