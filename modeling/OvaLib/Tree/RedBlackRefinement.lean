import OvaLib.Tree.Calls
import OvaLib.Tree.RedBlackFixup

/-!
# The red-black tree is a finite map

The abstract map binds classes of equivalent keys to values. `Represents` says that the memory holds
a linked red-black tree whose keys ascend and whose nodes list the bindings.

## Descents

A descent is followed by the context it builds: each frame records on which side of its node the key
lies, and in a sorted tree the frames together separate the smaller keys from the larger ones. So a
descent that ends at an empty place has shown that the key is not in the tree, and that the place is
the right one.

## The parts of an operation

An insertion is a descent, a link and a fixup. A deletion is a descent, an unlinking and perhaps a
fixup. The unlinking has three shapes, and the third, with the successor of a node that has two
subtrees, two more; all end in the same description of what the fixup is given, `UnlinkSpec`, with
the node gone, the order of the others kept, and one black node missing below the focus where a
black one was taken.

## What the result says

After a run of insertions and deletions the memory holds a red-black tree, stated property by
property and not through the invariant: the links, the parents, the order of the keys, the root and
the sentinel black, no red node with a red child, the same number of black nodes on all paths. Its
nodes list the bindings of the finite map, and the size is their number. Given more fuel than calls,
every loop of the run ends.

## Main results

* `searchEnd` — where the two descents end
* `linkNew_focus`, `unlinkNode_spec` — linking a new node, and unlinking one
* `rbTreeInsert_spec`, `rbTreeDelete_spec` — one operation
* `rbTree_refines_map` — a whole run
-/

namespace OvaLib

namespace Tree

open Foundation

variable {κ υ : Type*} {cmp : κ → κ → ℤ}

/-! ## Descents -/

/-- The key lies on the side of each frame's node where the hole is. It is what a descent knows of
the nodes that it has compared with. -/
def OnPath (cmp : κ → κ → ℤ) (keyOf : Addr → κ) (key : κ) (ctx : Context Addr) : Prop :=
  ∀ f ∈ ctx, match f.side with
    | .left => cmp key (keyOf f.label) < 0
    | .right => 0 < cmp key (keyOf f.label)

/-- The keys ascend along a list of nodes. Keys that compare as equal do not occur twice, which is
what makes the tree a map. -/
def Ascending (cmp : κ → κ → ℤ) (keyOf : Addr → κ) (l : List Addr) : Prop :=
  l.Pairwise fun a b => cmp (keyOf a) (keyOf b) < 0

/-- **A path in a sorted tree** separates the smaller keys from the larger ones. -/
theorem OnPath.separates (h : IsComparator cmp) {keyOf : Addr → κ} {key : κ} {ctx : Context Addr}
    (hpath : OnPath cmp keyOf key ctx) (hsorted : Ascending cmp keyOf (labels ctx)) :
    (∀ a ∈ before ctx, cmp (keyOf a) key < 0) ∧ ∀ a ∈ after ctx, cmp key (keyOf a) < 0 := by
  induction ctx with
  | nil => simp
  | cons f ctx ih =>
    rcases f with ⟨side, b, s⟩
    have hhead := hpath _ List.mem_cons_self
    have htail : OnPath cmp keyOf key ctx := fun g hg => hpath g (List.mem_cons_of_mem _ hg)
    cases side with
    | left =>
      simp only [labels, before_cons, after_cons, Frame.before, Frame.after, List.append_nil,
        List.cons_append] at hsorted ⊢
      simp only at hhead
      obtain ⟨hbefore, hafter⟩ := ih htail (hsorted.sublist (List.Sublist.append_left
        ((List.sublist_append_right _ _).trans (List.sublist_cons_self _ _)) _))
      refine ⟨hbefore, fun a ha => ?_⟩
      rcases List.mem_cons.mp ha with rfl | ha
      · exact hhead
      · rcases List.mem_append.mp ha with has | ha
        · have hba := (List.pairwise_cons.mp (List.pairwise_append.mp hsorted).2.1).1 a
            (List.mem_append_left _ has)
          exact h.lt_trans hhead hba
        · exact hafter a ha
    | right =>
      simp only [labels, before_cons, after_cons, Frame.before, Frame.after,
        List.nil_append] at hsorted ⊢
      simp only at hhead
      obtain ⟨hbefore, hafter⟩ := ih htail (hsorted.sublist (List.Sublist.append_right
        (List.sublist_append_left _ _) _))
      refine ⟨fun a ha => ?_, hafter⟩
      have hb := (h.neg_iff (keyOf b) key).mpr hhead
      rcases List.mem_append.mp ha with ha | ha
      · exact hbefore a ha
      · rcases List.mem_append.mp ha with has | ha
        · have hab : cmp (keyOf a) (keyOf b) < 0 :=
            (List.pairwise_append.mp (List.pairwise_append.mp
              (List.pairwise_append.mp hsorted).1).2.1).2.2 a has b List.mem_cons_self
          exact h.lt_trans hab hb
        · rw [List.mem_singleton.mp ha]
          exact hb

/-- How the descents of `rb_tree_insert` and `rb_search_node` from `x` end: at the same node with an
equivalent key, or at the same empty place. The first also remembers the last node it passed, since
the new node is linked there. -/
inductive SearchEnd (cmp : κ → κ → ℤ) (t : RbTree κ υ) (key : κ) (fuel : ℕ) (x y : Addr)
    (T : BinaryTree Addr) : Prop
  | found (ctx : Context Addr) (a : Addr) (l r : BinaryTree Addr)
      (focus : Focus t.toLinks ctx (.node a l r) a) (plug_eq : plug ctx (.node a l r) = T)
      (equiv : cmp key (t.key a) = 0) (insert : insertDescent cmp t key fuel x y = some (.inl a))
      (search : rbSearchNode cmp t key fuel x = some a)
  | absent (ctx : Context Addr) (focus : Focus t.toLinks ctx .nil nil) (plug_eq : plug ctx .nil = T)
      (path : OnPath cmp t.key key ctx)
      (insert : insertDescent cmp t key fuel x y = some (.inr (ctxParent ctx)))
      (search : rbSearchNode cmp t key fuel x = some nil)

/-- **Descents end**, by induction on the subtree below, given more fuel than its height. Each
comparison adds a frame to the context, with the key on the side to which the descent goes on. -/
theorem searchEnd {t : RbTree κ υ} {key : κ} {s : BinaryTree Addr} {ctx : Context Addr} {x : Addr}
    (h : Focus t.toLinks ctx s x) (hpath : OnPath cmp t.key key ctx) {fuel : ℕ}
    (hfuel : s.height < fuel) : SearchEnd cmp t key fuel x (ctxParent ctx) (plug ctx s) := by
  induction s generalizing ctx x fuel with
  | nil =>
    obtain ⟨fuel, rfl⟩ : ∃ k, fuel = k + 1 := ⟨fuel - 1, by omega⟩
    have hx : x = nil := h.tree
    rw [hx] at h ⊢
    exact .absent ctx h rfl hpath (by simp [insertDescent]) (by simp [rbSearchNode])
  | node a l r ihl ihr =>
    obtain ⟨fuel, rfl⟩ : ∃ k, fuel = k + 1 := ⟨fuel - 1, by omega⟩
    rw [BinaryTree.height] at hfuel
    have hleft : Focus t.toLinks ctx (branch .left a l r) x := h
    have hright : Focus t.toLinks ctx (branch .right a r l) x := h
    obtain rfl := hleft.address
    have hx := hleft.ne_nil
    by_cases heq : cmp key (t.key x) = 0
    · exact .found ctx x l r h rfl heq (by simp [insertDescent, hx, heq])
        (by simp [rbSearchNode, hx, heq])
    · by_cases hlt : cmp key (t.key x) < 0
      · have hpath' : OnPath cmp t.key key (⟨.left, x, r⟩ :: ctx) :=
          List.forall_mem_cons.mpr ⟨hlt, hpath⟩
        have hins : insertDescent cmp t key (fuel + 1) x (ctxParent ctx) =
            insertDescent cmp t key fuel (t.child .left x) x := by
          simp [insertDescent, hx, heq, hlt]
        have hsrch : rbSearchNode cmp t key (fuel + 1) x =
            rbSearchNode cmp t key fuel (t.child .left x) := by
          simp [rbSearchNode, hx, heq, hlt]
        cases ihl hleft.down hpath' (show l.height < fuel by omega) with
        | found ctx' a l' r' hfoc hplug hequiv hi hs =>
          exact .found ctx' a l' r' hfoc hplug hequiv (hins.trans hi) (hsrch.trans hs)
        | absent ctx' hfoc hplug hp hi hs =>
          exact .absent ctx' hfoc hplug hp (hins.trans hi) (hsrch.trans hs)
      · have hgt : 0 < cmp key (t.key x) := by omega
        have hpath' : OnPath cmp t.key key (⟨.right, x, l⟩ :: ctx) :=
          List.forall_mem_cons.mpr ⟨hgt, hpath⟩
        have hins : insertDescent cmp t key (fuel + 1) x (ctxParent ctx) =
            insertDescent cmp t key fuel (t.child .right x) x := by
          simp [insertDescent, hx, heq, hlt]
        have hsrch : rbSearchNode cmp t key (fuel + 1) x =
            rbSearchNode cmp t key fuel (t.child .right x) := by
          simp [rbSearchNode, hx, heq, hlt]
        cases ihr hright.down hpath' (show r.height < fuel by omega) with
        | found ctx' a l' r' hfoc hplug hequiv hi hs =>
          exact .found ctx' a l' r' hfoc hplug hequiv (hins.trans hi) (hsrch.trans hs)
        | absent ctx' hfoc hplug hp hi hs =>
          exact .absent ctx' hfoc hplug hp (hins.trans hi) (hsrch.trans hs)

/-! ## Linking a new node -/

/-- **The new node is linked at the empty place** its descent ended at. The source compares the key
with the last node once more to find the side; the frame says what that comparison gives. -/
theorem linkNew_focus {t : RbTree κ υ} {key : κ} (value : Option υ)
    {ctx : Context Addr} (hfoc : Focus t.toLinks ctx .nil nil) (hpath : OnPath cmp t.key key ctx)
    (hz : t.fresh ≠ nil) (hfresh : t.fresh ∉ labels ctx) :
    Focus (linkNew cmp t key value (ctxParent ctx)).toLinks ctx (.node t.fresh .nil .nil) t.fresh ∧
      (linkNew cmp t key value (ctxParent ctx)).color =
        Function.update t.color t.fresh .red := by
  obtain ⟨hctx, -, hnd⟩ := hfoc
  obtain ⟨-, hndctx, -⟩ := nodup_plug_iff.mp hnd
  -- the fields of the new node itself
  obtain ⟨m, hm⟩ : ∃ m, m = (((t.toLinks.setChild .left t.fresh nil).setChild .right t.fresh
      nil).setParent t.fresh (ctxParent ctx)).setColor t.fresh .red := ⟨_, rfl⟩
  have hchild : ∀ q ≠ t.fresh, ∀ side, m.child side q = t.child side q := by
    intro q hq side
    rw [hm, Links.setColor_child, Links.setParent_child, Links.setChild_child_of_ne _ _ _ _ hq,
      Links.setChild_child_of_ne _ _ _ _ hq]
  have hparent : ∀ q ≠ t.fresh, m.parent q = t.parent q := by
    intro q hq
    rw [hm, Links.setColor_parent, Links.setParent_parent_of_ne _ _ hq]
    rfl
  have hleft : m.child .left t.fresh = nil := by
    rw [hm, Links.setColor_child, Links.setParent_child]
    exact (Links.setChild_child_opp _ .right _ _ _).trans (Links.setChild_child_self _ _ _ _)
  have hright : m.child .right t.fresh = nil := by
    rw [hm, Links.setColor_child, Links.setParent_child]
    exact Links.setChild_child_self _ _ _ _
  have hpar : m.parent t.fresh = ctxParent ctx := by
    rw [hm, Links.setColor_parent, Links.setParent_parent_self]
  have hcolor : m.color = Function.update t.color t.fresh .red := by rw [hm]; rfl
  have hroot : m.root = t.root := by rw [hm]; rfl
  have hctx' : LinkedCtx m.child m.parent m.root ctx nil := by
    rw [hroot]
    exact hctx.congr fun q hq => ⟨hparent q (ne_of_mem_of_not_mem hq hfresh),
      hchild q (ne_of_mem_of_not_mem hq hfresh)⟩
  have hnd' : (inorder (plug ctx (.node t.fresh .nil .nil))).Nodup := by
    refine nodup_plug_iff.mpr ⟨by simp [inorder], hndctx, fun b hb => ?_⟩
    obtain rfl : b = t.fresh := by simpa [inorder] using hb
    exact hfresh
  cases ctx with
  | nil =>
    have hlinks : (linkNew cmp t key value (ctxParent [])).toLinks =
        { m with root := t.fresh } := by
      simp only [linkNew, ctxParent, if_true, hm]
    rw [hlinks]
    exact ⟨⟨rfl, ⟨rfl, hz, hpar, hleft, hright⟩, hnd'⟩, hcolor⟩
  | cons f ctx =>
    have hne : f.label ≠ nil := hctx.1
    have hfz : t.fresh ≠ f.label := fun heq => hfresh (by simp [heq])
    have hlinks : (linkNew cmp t key value (ctxParent (f :: ctx))).toLinks =
        m.setChild f.side f.label t.fresh := by
      have hside := hpath f List.mem_cons_self
      rw [hm]
      cases hf : f.side with
      | left =>
        have hlt : cmp key (t.key f.label) < 0 := by rwa [hf] at hside
        exact (if_neg hne).trans (if_pos hlt)
      | right =>
        have hgt : 0 < cmp key (t.key f.label) := by rwa [hf] at hside
        exact (if_neg hne).trans (if_neg (not_lt.mpr hgt.le))
    rw [hlinks]
    refine ⟨⟨hctx'.setChild hndctx, ⟨rfl, hz, hpar, ?_, ?_⟩, hnd'⟩, hcolor⟩
    · exact (Links.setChild_child_of_ne _ _ _ _ hfz).trans hleft
    · exact (Links.setChild_child_of_ne _ _ _ _ hfz).trans hright

/-! ## Unlinking a node

What is taken out is the node with the key, or its successor is moved to its place. -/

/-- **`rb_minimum`** finds the end of the left spine. -/
theorem rbMinimum_spec {m : Links} {s : BinaryTree Addr} {ctx : Context Addr} {x : Addr}
    (h : Focus m ctx s x) (hne : x ≠ nil) {fuel : ℕ} (hfuel : s.height < fuel) :
    ∃ ctx' y r, m.rbMinimum fuel x = some y ∧ s = plug ctx' (.node y .nil r) ∧
      before ctx' = [] := by
  induction s generalizing ctx x fuel with
  | nil => exact absurd h.tree hne
  | node a l r ihl =>
    obtain ⟨fuel, rfl⟩ : ∃ k, fuel = k + 1 := ⟨fuel - 1, by omega⟩
    rw [BinaryTree.height] at hfuel
    have hleft : Focus m ctx (branch .left a l r) x := h
    obtain rfl := hleft.address
    by_cases hl : m.child .left x = nil
    · have hlnil : l = .nil := Linked.eq_nil_of (hl ▸ hleft.down.tree)
      exact ⟨[], x, r, by simp [Links.rbMinimum, hl], by rw [hlnil]; rfl, rfl⟩
    · obtain ⟨ctx', y, r', hmin, hs, hbefore⟩ :=
        ihl hleft.down hl (show l.height < fuel by omega)
      refine ⟨ctx' ++ [⟨.left, x, r⟩], y, r', ?_, ?_, ?_⟩
      · rw [Links.rbMinimum, if_pos hl, hmin]
      · rw [plug_append, ← hs]
        rfl
      · rw [before_append, hbefore]
        rfl

/-- What `rb_tree_delete` has before its fixup: `z` is gone, and where the unlinked node was black,
the subtree `x` lacks a black node. The parent field of `x` is right even if `x` is the sentinel. -/
structure UnlinkSpec (m m' : Links) (x : Addr) (c : Color) (l : List Addr) (ctx : Context Addr)
    (s : BinaryTree Addr) : Prop where
  focus : Focus m' ctx s x
  /-- The fixup can go up from `x`, even if that is the sentinel. -/
  parent_eq : m'.parent x = ctxParent ctx
  inorder_eq : inorder (plug ctx s) = l
  nil_black : m'.color nil = .black
  red : c = .red → ∃ n, Balanced m'.color .black n (plug ctx s)
  black : c = .black → ∃ cs n, Balanced m'.color cs n s ∧ Fits m'.color .black (n + 1) ctx

/-- A node with a subtree on one side only is replaced by that subtree. -/
theorem transplant_unlink {m : Links} {side : Side} {z : Addr} {s : BinaryTree Addr}
    {ctx : Context Addr} {k : ℕ} (h : Focus m ctx (branch side z .nil s) z)
    (hbal : Balanced m.color .black k (plug ctx (branch side z .nil s)))
    (hnil : m.color nil = .black) :
    UnlinkSpec m (m.rbTransplant z (m.child side.opp z)) (m.child side.opp z) (m.color z)
      (before ctx ++ inorder s ++ after ctx) ctx s := by
  obtain ⟨-, hz, -, -, hs⟩ := linked_branch.mp h.tree
  obtain ⟨hnd, -, -⟩ := nodup_plug_iff.mp h.nodup
  rw [nodup_branch_iff] at hnd
  obtain ⟨-, -, -, hnds, -⟩ := hnd
  obtain ⟨hspec, hfoc⟩ := rbTransplant_focus h hz hs
    (fun a ha => mem_inorder_branch.mpr (.inr (.inr ha))) hnds
  obtain ⟨c, n, hbranch, hfits⟩ := hbal.exists_fits
  refine ⟨hfoc, hspec.parent_self, inorder_plug _ _, hspec.color_eq ▸ hnil, fun hred => ?_,
    fun hblack => ?_⟩
  · rw [hspec.color_eq]
    rcases hbranch.of_branch with ⟨rfl, -, -, hs⟩ | ⟨rfl, hc, -⟩
    · exact hfits.black_of.plug hs
    · rw [hred] at hc
      cases hc
  · rw [hspec.color_eq]
    rcases hbranch.of_branch with ⟨rfl, hc, -⟩ | ⟨rfl, -, n, cn, cf, rfl, -, hs⟩
    · rw [hblack] at hc
      cases hc
    · exact ⟨cf, n, hs, hfits⟩

/-- The right subtree of the new node, once `y` is taken out of it. The two ways to take it out end
in this, so that the steps after it are proved once. -/
structure DetachSpec (m m' : Links) (z y x : Addr) (l r : BinaryTree Addr)
    (ctx ctxr : Context Addr) :
    Prop where
  context : LinkedCtx m'.child m'.parent m'.root ctx z
  parent_z : m'.parent z = ctxParent ctx
  left : Linked m'.child m'.parent l (m'.child .left z) z
  right : Linked m'.child m'.parent (plug ctxr r) (m'.child .right y) y
  color_eq : m'.color = m.color
  parent_nil : x = nil → m'.parent nil = ctxParent (ctxr ++ [⟨.right, y, l⟩])

/-- The successor is the right child: its parent field is all that is assigned. The field is that of
the subtree it leaves behind, which may be the sentinel. -/
theorem detach_child {m : Links} {z y : Addr} {l r : BinaryTree Addr} {ctx : Context Addr}
    (h : Focus m (⟨.right, z, l⟩ :: ctx) (branch .left y .nil r) y) :
    DetachSpec m (m.setParent (m.child .right y) y) z y (m.child .right y) l r ctx [] := by
  obtain ⟨hz, -, hparz, hl, hctx⟩ := h.context
  obtain ⟨-, hy, hpary, -, hr⟩ := linked_branch.mp h.tree
  obtain ⟨hzt, hzl, hzctx, hlt, hlctx, hndl⟩ := h.oneFrame
  simp only [mem_inorder_branch, not_or] at hzt hlt
  simp only at hz hparz hl hctx hzl hzctx hlctx
  obtain ⟨hndy, -, hdisj⟩ := nodup_plug_iff.mp h.nodup
  rw [nodup_branch_iff] at hndy
  obtain ⟨-, hyr, -, hndr, -⟩ := hndy
  have hx : ∀ q : Addr, q ≠ nil → q ∉ inorder r → q ≠ m.child .right y := by
    intro q hq hqr heq
    exact hqr (heq ▸ hr.mem_of_ne_nil (heq ▸ hq))
  have hne : ∀ q : Addr, q ≠ nil → q ∉ inorder r →
      (m.setParent (m.child .right y) y).parent q = m.parent q :=
    fun q hq hqr => Links.setParent_parent_of_ne _ _ (hx q hq hqr)
  refine ⟨?_, ?_, ?_, ?_, rfl, ?_⟩
  · refine hctx.congr fun q hq => ⟨hne q ?_ ?_, fun _ => rfl⟩
    · exact fun heq => hctx.nil_notMem (heq ▸ hq)
    · exact fun hqr => hdisj q (by simp [hqr]) (by simp [hq])
  · rw [hne z hz hzt.2.2, hparz]
  · refine hl.congr fun q hq => ⟨hne q ?_ (hlt q hq).2.2, fun _ => rfl⟩
    exact fun heq => hl.nil_notMem (heq ▸ hq)
  · exact hr.reparent (fun _ _ _ => rfl)
      (fun q _ hq => Links.setParent_parent_of_ne _ _ hq)
      (fun _ => Links.setParent_parent_self _ _ _) hndr
  · intro hxnil
    rw [hxnil, Links.setParent_parent_self]
    rfl

/-- The successor is deeper: its right subtree takes its place, and it takes the right subtree
of `z`. -/
theorem detach_deep {m : Links} {z y : Addr} {l r : BinaryTree Addr} {ctx ctxr : Context Addr}
    (h : Focus m (ctxr ++ ⟨.right, z, l⟩ :: ctx) (branch .left y .nil r) y) (hne : ctxr ≠ []) :
    let m₁ := m.rbTransplant y (m.child .right y)
    let m₂ := m₁.setChild .right y (m₁.child .right z)
    DetachSpec m (m₂.setParent (m₂.child .right y) y) z y (m.child .right y) l r ctx ctxr := by
  intro m₁ m₂
  obtain ⟨-, hy, -, -, hr⟩ := linked_branch.mp h.tree
  obtain ⟨hndy, -, hdisj⟩ := nodup_plug_iff.mp h.nodup
  rw [nodup_branch_iff] at hndy
  obtain ⟨-, hyr, -, hndr, -⟩ := hndy
  have hylab := hdisj y (by simp)
  simp only [mem_labels_append, mem_labels_cons, not_or] at hylab
  obtain ⟨hyctxr, hyz, hyl, hyctx⟩ := hylab
  obtain ⟨hspec, hfoc⟩ := rbTransplant_focus h hy hr
    (fun a ha => mem_inorder_branch.mpr (.inr (.inr ha))) hndr
  obtain ⟨q, hq⟩ := hfoc.climb
  obtain ⟨hz, hzq, hparz, hl, hctx⟩ := hq.context
  obtain ⟨hzt, hzl, hzctx, hlt, hlctx, -⟩ := hq.oneFrame
  simp only at hz hzq hparz hl hzl hzctx hlctx
  obtain ⟨hndR, -, hdisjR⟩ := nodup_plug_iff.mp hq.nodup
  have hqne : q ≠ nil := by
    intro hqnil
    obtain ⟨f, ctxr, rfl⟩ := List.exists_cons_of_ne_nil hne
    have hempty : plug (f :: ctxr) r = .nil := Linked.eq_nil_of (hqnil ▸ hq.tree)
    have hmem : f.label ∈ inorder (plug (f :: ctxr) r) := mem_inorder_plug.mpr (.inr (by simp))
    rw [hempty] at hmem
    simp at hmem
  have hqR : q ∈ inorder (plug ctxr r) := hq.tree.mem_of_ne_nil hqne
  have hyR : y ∉ inorder (plug ctxr r) := by
    rw [mem_inorder_plug, not_or]
    exact ⟨hyr, hyctxr⟩
  -- one child field and one parent field change after the transplant
  obtain ⟨m₃, hm₃⟩ : ∃ m₃, m₃ = m₂.setParent (m₂.child .right y) y := ⟨_, rfl⟩
  have hchildy : m₂.child .right y = q := (Links.setChild_child_self _ _ _ _).trans hzq
  have hchild : ∀ a ≠ y, ∀ side, m₃.child side a = m₁.child side a := by
    intro a ha side
    rw [hm₃, Links.setParent_child]
    exact Links.setChild_child_of_ne _ _ _ _ ha
  have hparent : ∀ a ≠ q, m₃.parent a = m₁.parent a := by
    intro a ha
    rw [hm₃, hchildy, Links.setParent_parent_of_ne _ _ ha]
    rfl
  have hroot : m₃.root = m₁.root := by rw [hm₃]; rfl
  rw [← hm₃]
  refine ⟨?_, ?_, ?_, ?_, ?_, ?_⟩
  · rw [hroot]
    refine hctx.congr fun a ha => ⟨hparent a ?_, hchild a (ne_of_mem_of_not_mem ha hyctx)⟩
    exact fun heq => hdisjR q hqR (by simp [← heq, ha])
  · rw [hparent z fun heq => hzt (heq ▸ hqR)]
    exact hparz
  · rw [hchild z (Ne.symm hyz)]
    refine hl.congr fun a ha => ⟨hparent a ?_, hchild a (ne_of_mem_of_not_mem ha hyl)⟩
    exact fun heq => hlt a ha (heq ▸ hqR)
  · have hright : m₃.child .right y = q := by rw [hm₃, Links.setParent_child, hchildy]
    rw [hright]
    refine hq.tree.reparent (fun a ha => hchild a (ne_of_mem_of_not_mem ha hyR))
      (fun a _ ha => hparent a ha) (fun _ => ?_) hndR
    rw [hm₃, hchildy, Links.setParent_parent_self]
  · rw [hm₃]
    exact hspec.color_eq
  · intro hx
    have hself : m₁.parent (m.child .right y) = ctxParent (ctxr ++ ⟨.right, z, l⟩ :: ctx) :=
      hspec.parent_self
    rw [hx] at hself
    rw [hparent nil hqne.symm, hself]
    obtain ⟨f, ctxr, rfl⟩ := List.exists_cons_of_ne_nil hne
    rfl

/-- **The successor takes the place of `z`**, whichever way it was detached, with the colour of `z`.
So above it nothing changes, and what is missing is a node of the colour it had itself. -/
theorem successor_unlink {m m₃ : Links} {z y : Addr} {l r : BinaryTree Addr}
    {ctx ctxr : Context Addr} {k : ℕ}
    (h : Focus m ctx (.node z l (plug ctxr (.node y .nil r))) z)
    (hbal : Balanced m.color .black k (plug ctx (.node z l (plug ctxr (.node y .nil r)))))
    (hnil : m.color nil = .black) (hl : l ≠ .nil) (hbefore : before ctxr = [])
    (hd : DetachSpec m m₃ z y (m.child .right y) l r ctx ctxr) :
    let m₄ := m₃.rbTransplant z y
    let m₅ := m₄.setChild .left y (m₄.child .left z)
    let m₆ := m₅.setParent (m₅.child .left y) y
    UnlinkSpec m (m₆.setColor y (m₆.color z)) (m.child .right y) (m.color y)
      (before ctx ++ (inorder l ++ inorder (plug ctxr (.node y .nil r))) ++ after ctx)
      (ctxr ++ ⟨.right, y, l⟩ :: ctx) r := by
  intro m₄ m₅ m₆
  -- the same tree, seen from the successor
  have hz' : Focus m ctx (branch .right z (plug ctxr (.node y .nil r)) l) z := h
  obtain ⟨q, hy'⟩ := hz'.down.descend
  have hy : Focus m (ctxr ++ ⟨.right, z, l⟩ :: ctx) (branch .left y .nil r) q := hy'
  obtain ⟨-, hyne, -, -, hr⟩ := linked_branch.mp hy.tree
  have hz : z ≠ nil := hz'.ne_nil
  obtain ⟨-, -, hdisjz⟩ := nodup_plug_iff.mp h.nodup
  have hinR : inorder (plug ctxr (.node y .nil r)) = y :: inorder (plug ctxr r) := by
    rw [inorder_plug, inorder_plug, hbefore]
    rfl
  have hnew : inorder (plug ctx (.node y l (plug ctxr r))) =
      before ctx ++ (inorder l ++ inorder (plug ctxr (.node y .nil r))) ++ after ctx := by
    rw [inorder_plug, inorder, hinR]
  have hnd : (inorder (plug ctx (.node y l (plug ctxr r)))).Nodup := by
    have hold : inorder (plug ctx (.node z l (plug ctxr (.node y .nil r)))) = before ctx ++
        (inorder l ++ z :: inorder (plug ctxr (.node y .nil r))) ++ after ctx := inorder_plug _ _
    refine h.nodup.sublist ?_
    rw [hnew, hold]
    exact (((List.sublist_cons_self _ _).append_left _).append_left _).append_right _
  obtain ⟨hfoc, hcolor, hparnil⟩ := replaceNode_focus hd.context hz hd.parent_z hd.left
    (fun heq => hl (Linked.eq_nil_of (heq ▸ hd.left))) hd.right hyne
    (hdisjz z (by simp [inorder])) hnd
  have hcolor₆ : m₆.color = m.color := hcolor.trans hd.color_eq
  have hfoc₆ : Focus (m₆.setColor y (m₆.color z)) ctx (branch .right y (plug ctxr r) l) y :=
    hfoc.setColor _ _
  obtain ⟨q', hx'⟩ := hfoc₆.down.descend
  rw [hx'.tree.address_unique hr] at hx'
  obtain ⟨c, n, hbranch, hfits⟩ : ∃ c n, Balanced m.color c n (branch .left y .nil r) ∧
      Fits m.color c n (ctxr ++ ⟨.right, z, l⟩ :: ctx) := by
    have hcut : Balanced m.color .black k
        (plug (ctxr ++ ⟨.right, z, l⟩ :: ctx) (branch .left y .nil r)) := by
      rw [plug_append]
      exact hbal
    exact hcut.exists_fits
  obtain ⟨hndy, -, hdisjy⟩ := nodup_plug_iff.mp hy.nodup
  rw [nodup_branch_iff] at hndy
  have hyr : y ∉ inorder r := hndy.2.1
  have hnewcolor : (m₆.setColor y (m₆.color z)).color =
      Function.update m.color y (m.color z) := by
    rw [Links.setColor_color, hcolor₆]
  have hfits' : Fits (Function.update m.color y (m.color z)) c n
      (ctxr ++ ⟨.right, y, l⟩ :: ctx) :=
    hfits.relabel (Function.update_self _ _ _) (fun b hb => Function.update_of_ne hb _ _)
      (hdisjy y (by simp))
  refine ⟨hx', ?_, ?_, ?_, fun hred => ?_, fun hblack => ?_⟩
  · by_cases hx : m.child .right y = nil
    · have hpn : m₆.parent nil = m₃.parent nil := hparnil
      rw [hx, Links.setColor_parent, hpn, hd.parent_nil hx]
      cases ctxr <;> rfl
    · exact hx'.parent_of_ne_nil hx
  · rw [plug_append]
    exact hnew
  · rw [hnewcolor, Function.update_of_ne hyne.symm]
    exact hnil
  · rw [hnewcolor]
    rcases hbranch.of_branch with ⟨rfl, -, -, hr'⟩ | ⟨rfl, hc, -⟩
    · exact hfits'.black_of.plug ((balanced_update hyr _).mpr hr')
    · rw [hred] at hc
      cases hc
  · rw [hnewcolor]
    rcases hbranch.of_branch with ⟨rfl, hc, -⟩ | ⟨rfl, -, n, cn, cf, rfl, -, hr'⟩
    · rw [hblack] at hc
      cases hc
    · exact ⟨cf, n, (balanced_update hyr _).mpr hr', hfits'⟩

/-- **Unlinking a node.** -/
theorem unlinkNode_spec {m : Links} {z : Addr} {l r : BinaryTree Addr} {ctx : Context Addr} {k : ℕ}
    (h : Focus m ctx (.node z l r) z) (hbal : Balanced m.color .black k (plug ctx (.node z l r)))
    (hnil : m.color nil = .black) {fuel : ℕ} (hfuel : r.height < fuel) :
    ∃ m' x c ctx' s, unlinkNode fuel m z = some (m', x, c) ∧
      UnlinkSpec m m' x c (before ctx ++ (inorder l ++ inorder r) ++ after ctx) ctx' s := by
  have hleft : Focus m ctx (branch .left z l r) z := h
  have hright : Focus m ctx (branch .right z r l) z := h
  by_cases hl : m.child .left z = nil
  · obtain rfl : l = .nil := Linked.eq_nil_of (hl ▸ hleft.down.tree)
    refine ⟨_, _, _, ctx, r, by rw [unlinkNode, if_pos hl], ?_⟩
    exact transplant_unlink hleft hbal hnil
  · have hlne : l ≠ .nil := by
      rintro rfl
      exact hl hleft.down.tree
    by_cases hr : m.child .right z = nil
    · obtain rfl : r = .nil := Linked.eq_nil_of (hr ▸ hright.down.tree)
      refine ⟨_, _, _, ctx, l, by rw [unlinkNode, if_neg hl, if_pos hr], ?_⟩
      rw [inorder_nil, List.append_nil]
      exact transplant_unlink hright hbal hnil
    · obtain ⟨ctxr, y, r', hmin, rfl, hbefore⟩ := rbMinimum_spec hright.down hr hfuel
      obtain ⟨q, hy⟩ := hright.down.descend
      have hy' : Focus m (ctxr ++ ⟨.right, z, l⟩ :: ctx) (branch .left y .nil r') q := hy
      obtain rfl := hy'.address
      by_cases hpar : m.parent q = z
      · have hctxr : ctxr = [] := by
          cases ctxr with
          | nil => rfl
          | cons f ctxr =>
            have hz : z ∉ inorder (plug (f :: ctxr) (.node q .nil r')) := hright.down.oneFrame.p_t
            have hf : m.parent q = f.label := hy'.parent_eq
            exact absurd (mem_inorder_plug.mpr (.inr (by simp [← hpar, hf]))) hz
        subst hctxr
        refine ⟨_, _, _, _, r', ?_, successor_unlink h hbal hnil hlne hbefore (detach_child hy')⟩
        simp only [unlinkNode, if_neg hl, if_neg hr, hmin, Option.map_some, if_pos hpar]
      · have hctxr : ctxr ≠ [] := by
          rintro rfl
          exact hpar hy'.parent_eq
        refine ⟨_, _, _, _, r', ?_, successor_unlink h hbal hnil hlne hbefore
          (detach_deep hy' hctxr)⟩
        simp only [unlinkNode, if_neg hl, if_neg hr, hmin, Option.map_some, if_neg hpar]

/-- **The end of a deletion**: the fixup runs exactly when the unlinked node was black. Without it
the tree is balanced already, as a red node counts on no path. -/
theorem UnlinkSpec.fixup {m m' : Links} {x : Addr} {c : Color} {l : List Addr} {ctx : Context Addr}
    {s : BinaryTree Addr} (hspec : UnlinkSpec m m' x c l ctx s) {fuel : ℕ}
    (hfuel : l.length + 1 < fuel) :
    ∃ m'', (if c = .black then m'.rbDeleteFixup fuel x else some m') = some m'' ∧
      IsRedBlack m'' l := by
  cases c with
  | red =>
    obtain ⟨k, hk⟩ := hspec.red rfl
    exact ⟨m', rfl, _, hspec.focus.top, hspec.inorder_eq, ⟨k, hk⟩, hspec.nil_black⟩
  | black =>
    obtain ⟨cs, k, hs, hfits⟩ := hspec.black rfl
    have hctx : ctx.length ≤ l.length := by
      refine (length_le_labels ctx).trans ?_
      rw [← hspec.inorder_eq, inorder_plug, labels]
      simp only [List.length_append]
      omega
    obtain ⟨m'', hm'', hrb⟩ := rbDeleteFixup_spec fuel hspec.focus hspec.parent_eq hs hfits
      hspec.nil_black (by omega)
    exact ⟨m'', hm'', hspec.inorder_eq ▸ hrb⟩

/-! ## The coupling invariant -/

/-- **The coupling invariant**: a linked red-black tree of ascending keys whose nodes list the
bindings. The list `l` has the nodes in order, and a class of keys is bound in `M` exactly when a
node has a key of that class. -/
structure Represents (h : IsComparator cmp) (t : RbTree κ υ) (l : List Addr) (M : KeyMap h υ) :
    Prop where
  /-- A linked red-black tree of these nodes, in order. -/
  redBlack : IsRedBlack t.toLinks l
  ascending : Ascending cmp t.key l
  lists : Lists (fun a => h.keyClass (t.key a)) t.value l M
  size : t.size = l.length
  fresh : ∀ a ∈ l, a < t.fresh
  fresh_pos : nil < t.fresh

variable {h : IsComparator cmp} {t : RbTree κ υ} {l : List Addr} {M : KeyMap h υ}

/-- No node has an equivalent key where the descent found an empty place. -/
theorem Represents.eq_none (ht : Represents h t l M) {key : κ} {ctx : Context Addr}
    (hl : l = labels ctx) (hpath : OnPath cmp t.key key ctx) : M (h.keyClass key) = none := by
  obtain ⟨hbefore, hafter⟩ := hpath.separates h (hl ▸ ht.ascending)
  refine ht.lists.eq_none_iff.mpr fun a ha heq => ?_
  have hzero := h.keyClass_eq_iff.mp heq
  rw [hl] at ha
  rcases List.mem_append.mp ha with ha | ha
  · have := hbefore a ha
    omega
  · have := hafter a ha
    have := h.eq_symm hzero
    omega

theorem Ascending.congr {keyOf keyOf' : Addr → κ} (hl : Ascending cmp keyOf l)
    (heq : ∀ a ∈ l, keyOf' a = keyOf a) : Ascending cmp keyOf' l :=
  List.Pairwise.imp_of_mem (fun ha hb hab => by rwa [heq _ ha, heq _ hb]) hl

/-- A key between the smaller and the larger ones. -/
theorem Ascending.insert_between {keyOf : Addr → κ} {ctx : Context Addr} {z : Addr}
    (hl : Ascending cmp keyOf (labels ctx)) (hb : ∀ a ∈ before ctx, cmp (keyOf a) (keyOf z) < 0)
    (ha : ∀ a ∈ after ctx, cmp (keyOf z) (keyOf a) < 0) :
    Ascending cmp keyOf (before ctx ++ z :: after ctx) := by
  obtain ⟨hbefore, hafter, hcross⟩ := List.pairwise_append.mp hl
  refine List.pairwise_append.mpr ⟨hbefore, List.pairwise_cons.mpr ⟨ha, hafter⟩,
    fun a hab b hba => ?_⟩
  rcases List.mem_cons.mp hba with rfl | hba
  exacts [hb a hab, hcross a hab b hba]

/-- A descent from the root. -/
theorem Represents.searchEnd (ht : Represents h t l M) (key : κ) {fuel : ℕ}
    (hfuel : l.length < fuel) :
    ∃ T n, inorder T = l ∧ Balanced t.color .black n T ∧
      SearchEnd cmp t key fuel t.root nil T := by
  obtain ⟨T, hfoc, hT, ⟨n, hbal⟩, -⟩ := ht.redBlack
  have hpath : OnPath cmp t.key key [] := by
    intro f hf
    cases hf
  exact ⟨T, n, hT, hbal, Tree.searchEnd hfoc hpath (height_lt (hT ▸ hfuel))⟩

/-! ## One operation

The parts, put together. -/

section LinkNew

variable {key : κ} {ctx : Context Addr} {y : Addr}

theorem linkNew_key_self (value : Option υ) :
    (linkNew cmp t key value y).key t.fresh = key :=
  Function.update_self _ _ _

theorem linkNew_value_self (value : Option υ) :
    (linkNew cmp t key value y).value t.fresh = value :=
  Function.update_self _ _ _

theorem linkNew_key_of_ne (value : Option υ) {a : Addr} (ha : a ≠ t.fresh) :
    (linkNew cmp t key value y).key a = t.key a :=
  Function.update_of_ne ha _ _

theorem linkNew_value_of_ne (value : Option υ) {a : Addr} (ha : a ≠ t.fresh) :
    (linkNew cmp t key value y).value a = t.value a :=
  Function.update_of_ne ha _ _

/-- **The fixup after a new red node** ends in a red-black tree. -/
theorem linkNew_fixup (value : Option υ) {n : ℕ} (hfoc : Focus t.toLinks ctx .nil nil)
    (hpath : OnPath cmp t.key key ctx) (hbal : Balanced t.color .black n (plug ctx .nil))
    (hnil : t.color nil = .black) (hz : t.fresh ≠ nil) (hfresh : t.fresh ∉ labels ctx) {fuel : ℕ}
    (hfuel : ctx.length < fuel) :
    ∃ m, (linkNew cmp t key value (ctxParent ctx)).rbInsertFixup fuel t.fresh = some m ∧
      IsRedBlack m (before ctx ++ t.fresh :: after ctx) := by
  obtain ⟨hlink, hcolor⟩ := linkNew_focus value hfoc hpath hz hfresh
  -- the new node is red, in a context that takes an empty tree
  have hfits : Fits (linkNew cmp t key value (ctxParent ctx)).color .black 0 ctx := by
    obtain ⟨c, k, hempty, hfits⟩ := hbal.exists_fits
    cases hempty
    rw [hcolor]
    exact (fits_update hfresh _).mpr hfits
  have hred : Balanced (linkNew cmp t key value (ctxParent ctx)).color .red 0
      (.node t.fresh .nil .nil) :=
    .red (by rw [hcolor, Function.update_self]) .nil .nil
  have hnil' : (linkNew cmp t key value (ctxParent ctx)).color nil = .black := by
    rw [hcolor, Function.update_of_ne hz.symm]
    exact hnil
  obtain ⟨m, hm, hrb⟩ := rbInsertFixup_spec fuel hlink hred hfits hnil' hfuel
  have hnew : inorder (plug ctx (.node t.fresh .nil .nil)) =
      before ctx ++ t.fresh :: after ctx := by
    rw [inorder_plug]
    simp [inorder]
  exact ⟨m, hm, hnew ▸ hrb⟩

open Classical in
/-- A new node in the place of its key binds it. -/
theorem Represents.linkNew (ht : Represents h t l M) (value : Option υ) (hl : l = labels ctx)
    (hpath : OnPath cmp t.key key ctx) {m : Links}
    (hrb : IsRedBlack m (before ctx ++ t.fresh :: after ctx)) :
    Represents h { Tree.linkNew cmp t key value y with toLinks := m }
      (before ctx ++ t.fresh :: after ctx) (Function.update M (h.keyClass key) (some value)) := by
  have hne : ∀ a ∈ l, a ≠ t.fresh := fun a ha => (ht.fresh a ha).ne
  have hkey : ∀ a ∈ l, (Tree.linkNew cmp t key value y).key a = t.key a := fun a ha =>
    linkNew_key_of_ne value (hne a ha)
  have hval : ∀ a ∈ l, (Tree.linkNew cmp t key value y).value a = t.value a := fun a ha =>
    linkNew_value_of_ne value (hne a ha)
  have hperm : (before ctx ++ t.fresh :: after ctx).Perm (t.fresh :: l) := by
    rw [hl]
    exact List.perm_middle
  refine ⟨hrb, ?_, ?_, ?_, fun a ha => ?_, Nat.lt_succ_of_lt ht.fresh_pos⟩
  · obtain ⟨hbefore, hafter⟩ := hpath.separates h (hl ▸ ht.ascending)
    have hsub : ∀ a ∈ labels ctx, a ∈ l := fun a ha => hl ▸ ha
    refine Ascending.insert_between ((hl ▸ ht.ascending).congr fun a ha => hkey a (hsub a ha))
      (fun a ha => ?_) fun a ha => ?_
    · rw [linkNew_key_self, hkey a (hsub a (List.mem_append_left _ ha))]
      exact hbefore a ha
    · rw [linkNew_key_self, hkey a (hsub a (List.mem_append_right _ ha))]
      exact hafter a ha
  · have hins := ht.lists.insertNew
      (fun a => h.keyClass ((Tree.linkNew cmp t key value y).key a))
      (fun a ha => by rw [hkey a ha]) hval (e := t.fresh)
      (by rw [linkNew_key_self]; exact ht.eq_none hl hpath) hperm
    rw [linkNew_key_self, linkNew_value_self] at hins
    exact hins
  · rw [hperm.length_eq]
    show t.size + 1 = _
    rw [ht.size, List.length_cons]
  · show a < t.fresh + 1
    rcases List.mem_cons.mp (hperm.mem_iff.mp ha) with rfl | hmem
    · exact Nat.lt_succ_self _
    · exact Nat.lt_succ_of_lt (ht.fresh a hmem)

end LinkNew

open Classical in
/-- **An insertion** binds its key, by an assignment or by a new node. It has at most one node more
afterwards, which is how a run knows how much fuel is enough. -/
theorem rbTreeInsert_spec (ht : Represents h t l M) (key : κ) (value : Option υ) {fuel : ℕ}
    (hfuel : l.length < fuel) :
    ∃ t' l', rbTreeInsert cmp fuel .always t key value = some (t', .always) ∧
      Represents h t' l' (Function.update M (h.keyClass key) (some value)) ∧
      l'.length ≤ l.length + 1 := by
  obtain ⟨T, n, hT, hbal, hend⟩ := ht.searchEnd key hfuel
  cases hend with
  | found ctx a l₁ r₁ hfoc' hplug hequiv hinsert hsearch =>
    have ha : a ∈ l := by
      rw [← hT, ← hplug, mem_inorder_plug]
      simp [inorder]
    have hclass : h.keyClass key = h.keyClass (t.key a) := h.keyClass_eq_iff.mpr hequiv
    have hres : rbTreeInsert cmp fuel .always t key value =
        some ({ t with value := Function.update t.value a value }, .always) := by
      simp only [rbTreeInsert]
      rw [show insertDescent cmp t key fuel t.root nil = some (.inl a) from hinsert]
    refine ⟨_, l, hres, ⟨ht.redBlack, ht.ascending, ?_, ht.size, ht.fresh, ht.fresh_pos⟩, by omega⟩
    rw [hclass]
    exact ht.lists.assign ha value
  | absent ctx hfoc' hplug hpath hinsert hsearch =>
    have hl : l = labels ctx := by
      rw [← hT, ← hplug, inorder_plug_nil]
    have hnil : t.color nil = .black := by
      obtain ⟨-, -, -, -, hnil⟩ := ht.redBlack
      exact hnil
    have hfresh : t.fresh ∉ l := fun hmem => (ht.fresh _ hmem).false
    have hlen : ctx.length < fuel := lt_of_le_of_lt (length_le_labels ctx) (hl ▸ hfuel)
    obtain ⟨m, hm, hrb⟩ := linkNew_fixup value hfoc' hpath (hplug ▸ hbal) hnil
      ht.fresh_pos.ne' (hl ▸ hfresh) hlen
    have hres : rbTreeInsert cmp fuel .always t key value =
        some ({ linkNew cmp t key value (ctxParent ctx) with toLinks := m }, .always) := by
      simp only [rbTreeInsert]
      rw [show insertDescent cmp t key fuel t.root nil = some (.inr (ctxParent ctx)) from hinsert]
      simp only [Allocator.alloc_always]
      rw [hm]
      rfl
    refine ⟨_, _, hres, ht.linkNew value hl hpath hrb, ?_⟩
    rw [hl]
    simp [labels]
    omega

/-- The node with the key, unlinked from the rest of the tree. -/
theorem Represents.unlink (ht : Represents h t l M) {T l₁ r₁ : BinaryTree Addr} {n : ℕ}
    {ctx : Context Addr} {a : Addr} (hT : inorder T = l) (hbal : Balanced t.color .black n T)
    (hfoc : Focus t.toLinks ctx (.node a l₁ r₁) a) (hplug : plug ctx (.node a l₁ r₁) = T)
    {fuel : ℕ} (hfuel : l.length < fuel) :
    ∃ m x c ctx' s l', unlinkNode fuel t.toLinks a = some (m, x, c) ∧
      UnlinkSpec t.toLinks m x c l' ctx' s ∧ l.Perm (a :: l') ∧ l'.Sublist l := by
  have hnil : t.color nil = .black := by
    obtain ⟨-, -, -, -, hnil⟩ := ht.redBlack
    exact hnil
  have hl : l = before ctx ++ (inorder l₁ ++ a :: inorder r₁) ++ after ctx := by
    rw [← hT, ← hplug, inorder_plug, inorder]
  have hr : r₁.height < fuel := by
    refine height_lt (lt_of_le_of_lt ?_ hfuel)
    rw [hl]
    simp only [List.length_append, List.length_cons]
    omega
  rw [← hplug] at hbal
  obtain ⟨m, x, c, ctx', s, hunlink, hspec⟩ := unlinkNode_spec hfoc hbal hnil hr
  refine ⟨m, x, c, ctx', s, _, hunlink, hspec, ?_, ?_⟩
  · rw [hl]
    simp only [List.append_assoc, List.cons_append]
    exact (List.perm_middle.append_left _).trans List.perm_middle
  · rw [hl]
    exact (((List.sublist_cons_self _ _).append_left _).append_left _).append_right _

/-- **A deletion that finds its key** takes out the node with it. -/
theorem rbTreeDelete_found (ht : Represents h t l M) {key : κ} {T l₁ r₁ : BinaryTree Addr} {n : ℕ}
    {ctx : Context Addr} {a : Addr} (hT : inorder T = l) (hbal : Balanced t.color .black n T)
    (hfoc : Focus t.toLinks ctx (.node a l₁ r₁) a) (hplug : plug ctx (.node a l₁ r₁) = T)
    {fuel : ℕ} (hsearch : rbSearchNode cmp t key fuel t.root = some a) (hfuel : l.length < fuel) :
    ∃ m' l', rbTreeDelete cmp fuel t key =
        some { t with toLinks := m', size := if t.size > 0 then t.size - 1 else t.size } ∧
      IsRedBlack m' l' ∧ l.Perm (a :: l') ∧ l'.Sublist l := by
  have ha : a ≠ nil := hfoc.tree.2.1
  obtain ⟨m, x, c, ctx', s, l', hunlink, hspec, hperm, hsub⟩ := ht.unlink hT hbal hfoc hplug hfuel
  obtain ⟨m', hrun, hrb⟩ := hspec.fixup (show l'.length + 1 < fuel by
    rw [← List.length_cons, ← hperm.length_eq]
    exact hfuel)
  refine ⟨m', l', ?_, hrb, hperm, hsub⟩
  simp only [rbTreeDelete, hsearch, if_neg ha, hunlink]
  cases c with
  | red =>
    obtain rfl := Option.some.inj hrun
    rfl
  | black =>
    rw [if_pos rfl] at hrun ⊢
    rw [hrun]
    rfl

open Classical in
/-- The node with the key is gone. -/
theorem Represents.without (ht : Represents h t l M) {key : κ} {a : Addr}
    (hequiv : cmp key (t.key a) = 0) {m' : Links} {l' : List Addr} (hrb : IsRedBlack m' l')
    (hperm : l.Perm (a :: l')) (hsub : l'.Sublist l) :
    Represents h
      { t with toLinks := m', size := if t.size > 0 then t.size - 1 else t.size } l'
      (Function.update M (h.keyClass key) none) := by
  have hsize : (if t.size > 0 then t.size - 1 else t.size) = l'.length := by
    rw [ht.size, hperm.length_eq, List.length_cons, if_pos (Nat.succ_pos _), Nat.add_sub_cancel]
  refine ⟨hrb, ht.ascending.sublist hsub, ?_, hsize, fun b hb => ht.fresh b (hsub.subset hb),
    ht.fresh_pos⟩
  have herase := (ht.lists.perm hperm.symm).erase
  rwa [← h.keyClass_eq_iff.mpr hequiv] at herase

open Classical in
/-- **A deletion** unbinds its key, and changes nothing when the key is absent. There are no more
nodes than before. -/
theorem rbTreeDelete_spec (ht : Represents h t l M) (key : κ) {fuel : ℕ}
    (hfuel : l.length < fuel) :
    ∃ t' l', rbTreeDelete cmp fuel t key = some t' ∧
      Represents h t' l' (Function.update M (h.keyClass key) none) ∧ l'.length ≤ l.length := by
  obtain ⟨T, n, hT, hbal, hend⟩ := ht.searchEnd key hfuel
  cases hend with
  | absent ctx hfoc hplug hpath hinsert hsearch =>
    have hl : l = labels ctx := by
      rw [← hT, ← hplug, inorder_plug_nil]
    have hsame : Function.update M (h.keyClass key) none = M := by
      rw [← ht.eq_none hl hpath, Function.update_eq_self]
    refine ⟨t, l, ?_, by rwa [hsame], le_rfl⟩
    simp only [rbTreeDelete, hsearch, if_true]
  | found ctx a l₁ r₁ hfoc hplug hequiv hinsert hsearch =>
    obtain ⟨m', l', hres, hrb, hperm, hsub⟩ :=
      rbTreeDelete_found ht hT hbal hfoc hplug hsearch hfuel
    exact ⟨_, l', hres, ht.without hequiv hrb hperm hsub, hsub.length_le⟩

/-! ## Whole runs -/

/-- The model's step; every allocation succeeds. Runs in which nodes cannot be had are the subject
of another module. -/
def rbStep (cmp : κ → κ → ℤ) (fuel : ℕ) (t : RbTree κ υ) : Call κ υ → Option (RbTree κ υ)
  | .insert key value => (rbInsertMethod cmp fuel .always t (some key) value).map Prod.fst
  | .delete key => (rbDeleteMethod cmp fuel t (some key)).map Prod.fst

/-- A run of the model. -/
def rbRun (cmp : κ → κ → ℤ) (fuel : ℕ) (t : RbTree κ υ) (calls : List (Call κ υ)) :
    Option (RbTree κ υ) :=
  calls.foldlM (rbStep cmp fuel) t

theorem rbStep_refines (ht : Represents h t l M) (call : Call κ υ) {fuel : ℕ}
    (hfuel : l.length < fuel) :
    ∃ t' l', rbStep cmp fuel t call = some t' ∧ Represents h t' l' (mapStep h M call) ∧
      l'.length ≤ l.length + 1 := by
  cases call with
  | insert key value =>
    obtain ⟨t', l', hins, ht', hlen⟩ := rbTreeInsert_spec ht key value hfuel
    exact ⟨t', l', by simp [rbStep, rbInsertMethod, hins], ht', hlen⟩
  | delete key =>
    obtain ⟨t', l', hdel, ht', hlen⟩ := rbTreeDelete_spec ht key hfuel
    exact ⟨t', l', by simp [rbStep, rbDeleteMethod, hdel], ht', by omega⟩

/-- **A run simulates the run on the finite map**, given more fuel than nodes. -/
theorem rbRun_refines (calls : List (Call κ υ)) (ht : Represents h t l M) {fuel : ℕ}
    (hfuel : l.length + calls.length < fuel) :
    ∃ t' l', rbRun cmp fuel t calls = some t' ∧
      Represents h t' l' (calls.foldl (mapStep h) M) := by
  induction calls generalizing t l M with
  | nil => exact ⟨t, l, rfl, ht⟩
  | cons call calls ih =>
    rw [List.length_cons] at hfuel
    obtain ⟨t', l', hstep, ht', hlen⟩ := rbStep_refines ht call (show l.length < fuel by omega)
    obtain ⟨t'', l'', hrun, ht''⟩ := ih ht' (show l'.length + calls.length < fuel by omega)
    refine ⟨t'', l'', ?_, ht''⟩
    rw [rbRun, List.foldlM_cons, hstep]
    exact hrun

theorem represents_createRbTree [Inhabited κ] (h : IsComparator cmp) :
    Represents h (createRbTree : RbTree κ υ) [] fun _ => none where
  redBlack := ⟨.nil, ⟨rfl, rfl, List.nodup_nil⟩, rfl, ⟨0, .nil⟩, rfl⟩
  ascending := List.Pairwise.nil
  lists := .nil
  size := rfl
  fresh := by simp
  fresh_pos := Nat.one_pos

/-- A red node has black children, the sentinel included. -/
theorem Linked.black_of_red {child : Side → Addr → Addr} {parent : Addr → Addr}
    {color : Addr → Color} {T : BinaryTree Addr} {p par : Addr} {c : Color} {n : ℕ}
    (hlink : Linked child parent T p par) (ht : Balanced color c n T) (hnil : color nil = .black) :
    ∀ a ∈ inorder T, color a = .red → ∀ side, color (child side a) = .black := by
  induction ht generalizing p par with
  | nil => simp
  | red ha hl hr ihl ihr =>
    obtain ⟨-, -, -, hll, hlr⟩ := hlink
    intro b hb hred side
    rcases List.mem_append.mp hb with hb | hb
    · exact ihl hll b hb hred side
    · rcases List.mem_cons.mp hb with rfl | hb
      · cases side
        exacts [hll.color_eq hl hnil, hlr.color_eq hr hnil]
      · exact ihr hlr b hb hred side
  | black ha hl hr ihl ihr =>
    obtain ⟨-, -, -, hll, hlr⟩ := hlink
    intro b hb hred side
    rcases List.mem_append.mp hb with hb | hb
    · exact ihl hll b hb hred side
    · rcases List.mem_cons.mp hb with rfl | hb
      · rw [ha] at hred
        cases hred
      · exact ihr hlr b hb hred side

/-- **A red-black tree**, property by property. The tree `T` of addresses is the one the child
fields spell out; `Linked` includes that every parent field names the parent. -/
structure RedBlackTree (cmp : κ → κ → ℤ) (t : RbTree κ υ) (T : BinaryTree Addr) : Prop where
  linked : Linked t.child t.parent T t.root nil
  nodup : (inorder T).Nodup
  ascending : Ascending cmp t.key (inorder T)
  root_black : t.color t.root = .black
  nil_black : t.color nil = .black
  black_of_red : ∀ a ∈ inorder T, t.color a = .red → ∀ side, t.color (t.child side a) = .black
  blackCounts : ∃ n, ∀ k ∈ Foundation.blackCounts t.color T, k = n

theorem Represents.redBlackTree (ht : Represents h t l M) :
    ∃ T, RedBlackTree cmp t T ∧ inorder T = l := by
  obtain ⟨T, hfoc, hT, ⟨n, hbal⟩, hnil⟩ := ht.redBlack
  refine ⟨T, ⟨hfoc.tree, hfoc.nodup, hT ▸ ht.ascending, root_color hfoc hbal hnil, hnil,
    hfoc.tree.black_of_red hbal hnil, ⟨n, hbal.blackCounts⟩⟩, hT⟩

/-- **The red-black tree is a finite map.** Given more fuel than calls, every run of insertions and
deletions ends in a red-black tree that lists the bindings of the finite map the same calls
build, and the size is their number. -/
theorem rbTree_refines_map [Inhabited κ] (h : IsComparator cmp) (calls : List (Call κ υ)) {fuel : ℕ}
    (hfuel : calls.length < fuel) :
    ∃ t T, rbRun cmp fuel createRbTree calls = some t ∧ RedBlackTree cmp t T ∧
      Lists (fun a => h.keyClass (t.key a)) t.value (inorder T)
        (calls.foldl (mapStep h) fun _ => none) ∧
      t.size = (support (calls.foldl (mapStep h) fun _ => none)).ncard := by
  obtain ⟨t, l, hrun, ht⟩ := rbRun_refines calls (represents_createRbTree h)
    (show [].length + calls.length < fuel by simpa using hfuel)
  obtain ⟨T, hT, rfl⟩ := ht.redBlackTree
  exact ⟨t, T, hrun, hT, ht.lists, by rw [ht.lists.ncard_support, ht.size]⟩

/-- A run that inserts, overwrites and deletes. -/
theorem rbTree_refines_map_subtract :
    let calls : List (Call ℤ ℕ) :=
      [.insert 2 (some 20), .insert 1 none, .insert 3 (some 30), .insert 2 (some 21), .delete 1]
    ∃ t T, rbRun (fun a b => a - b) 6 createRbTree calls = some t ∧
      RedBlackTree (fun a b => a - b) t T ∧
      t.size = (support (calls.foldl (mapStep subtract_isComparator) fun _ => none)).ncard := by
  intro calls
  obtain ⟨t, T, hrun, hT, -, hsize⟩ :=
    rbTree_refines_map subtract_isComparator calls (show calls.length < 6 by decide)
  exact ⟨t, T, hrun, hT, hsize⟩

end Tree

end OvaLib
