import OvaLib.Foundation.TreeContext

/-!
# Red-black trees

The colours are a function on the labels, so recolouring a node and moving it are independent.
`Balanced color c n t` says that `t` is a red-black tree with a root of colour `c` and `n` black
nodes on every path; `Fits color c n ctx` says that the hole of `ctx` can be filled with such a
tree. The empty tree counts as black.

A balancing algorithm works at one place of the tree, where the rules are broken, and knows that
they hold everywhere else. That is what a context that fits says, and it needs no notion of a tree
that is almost red-black: the subtree at that place is balanced, the context fits, and the two do
not agree on a colour or on a count. A step changes colours near the place, and as these are a
function on labels, what is far away stays as it is by one lemma for each of the two notions.

The root may have either colour here. That it is black is a property of the whole tree, for those
who ask for it.

## Main results

* `Fits.plug`, `Balanced.exists_fits` — a red-black tree, cut at any of its subtrees
* `Balanced.blackCounts`, `Balanced.black_of_red` — the textbook properties
* `balanced_update`, `fits_update` — recolouring a node elsewhere
-/

namespace Foundation

/-- The colour of a node. -/
inductive Color
  | red
  | black
  deriving DecidableEq, Repr

variable {α : Type*}

/-- **Red-black trees.** -/
inductive Balanced (color : α → Color) : Color → ℕ → BinaryTree α → Prop
  | nil : Balanced color .black 0 .nil
  | red {a : α} {n : ℕ} {l r : BinaryTree α} (ha : color a = .red)
      (hl : Balanced color .black n l) (hr : Balanced color .black n r) :
      Balanced color .red n (.node a l r)
  | black {a : α} {n : ℕ} {cl cr : Color} {l r : BinaryTree α} (ha : color a = .black)
      (hl : Balanced color cl n l) (hr : Balanced color cr n r) :
      Balanced color .black (n + 1) (.node a l r)

/-- **Red-black contexts**: the hole takes a tree with a root of colour `c` and `n` black nodes on
every path. -/
inductive Fits (color : α → Color) : Color → ℕ → Context α → Prop
  | root {n : ℕ} : Fits color .black n []
  | red {f : Frame α} {ctx : Context α} {n : ℕ} (ha : color f.label = .red)
      (hs : Balanced color .black n f.sibling) (hctx : Fits color .red n ctx) :
      Fits color .black n (f :: ctx)
  | black {f : Frame α} {ctx : Context α} {n : ℕ} {c cs : Color} (ha : color f.label = .black)
      (hs : Balanced color cs n f.sibling) (hctx : Fits color .black (n + 1) ctx) :
      Fits color c n (f :: ctx)

variable {color color' : α → Color} {c : Color} {n : ℕ} {t : BinaryTree α} {ctx : Context α}

/-! ## Branches -/

theorem Balanced.red_branch (side : Side) {a : α} {near far : BinaryTree α} (ha : color a = .red)
    (hnear : Balanced color .black n near) (hfar : Balanced color .black n far) :
    Balanced color .red n (branch side a near far) := by
  cases side
  exacts [.red ha hnear hfar, .red ha hfar hnear]

theorem Balanced.black_branch (side : Side) {a : α} {near far : BinaryTree α} {cn cf : Color}
    (ha : color a = .black) (hnear : Balanced color cn n near) (hfar : Balanced color cf n far) :
    Balanced color .black (n + 1) (branch side a near far) := by
  cases side
  exacts [.black ha hnear hfar, .black ha hfar hnear]

/-- What a branch of a red-black tree looks like. -/
theorem Balanced.of_branch {side : Side} {a : α} {near far : BinaryTree α}
    (h : Balanced color c n (branch side a near far)) :
    (c = .red ∧ color a = .red ∧ Balanced color .black n near ∧ Balanced color .black n far) ∨
      c = .black ∧ color a = .black ∧
        ∃ m cn cf, n = m + 1 ∧ Balanced color cn m near ∧ Balanced color cf m far := by
  cases side <;> cases h with
  | red ha hl hr => exact .inl ⟨rfl, ha, by assumption, by assumption⟩
  | black ha hl hr => exact .inr ⟨rfl, ha, _, _, _, rfl, by assumption, by assumption⟩

theorem Balanced.color_eq {side : Side} {a : α} {near far : BinaryTree α}
    (h : Balanced color c n (branch side a near far)) : color a = c := by
  rcases h.of_branch with ⟨rfl, ha, -⟩ | ⟨rfl, ha, -⟩ <;> exact ha

/-- A tree with a black node on its paths, or with a red root, is a branch. -/
theorem Balanced.exists_branch (side : Side) (h : Balanced color c n t)
    (hne : c = .red ∨ 0 < n) : ∃ a near far, t = branch side a near far := by
  rcases eq_nil_or_branch side t with rfl | hbranch
  · cases h
    simp at hne
  · exact hbranch

/-! ## Filling and cutting

A tree is balanced if and only if it can be cut into a subtree and a context that agree. -/

theorem Fits.black_of (h : Fits color c n ctx) : Fits color .black n ctx := by
  cases h with
  | root => exact .root
  | red ha hs hctx => exact .red ha hs hctx
  | black ha hs hctx => exact .black ha hs hctx

/-- **Filling the hole** of a red-black context. -/
theorem Fits.plug (h : Fits color c n ctx) (ht : Balanced color c n t) :
    ∃ m, Balanced color .black m (plug ctx t) := by
  induction h generalizing t with
  | root => exact ⟨_, ht⟩
  | red ha hs _ ih => exact ih (ht.red_branch _ ha hs)
  | black ha hs _ ih => exact ih (ht.black_branch _ ha hs)

/-- **Cutting a red-black tree.** -/
theorem Balanced.exists_fits {m : ℕ} (h : Balanced color .black m (Foundation.plug ctx t)) :
    ∃ c n, Balanced color c n t ∧ Fits color c n ctx := by
  induction ctx generalizing t with
  | nil => exact ⟨_, _, h, .root⟩
  | cons f ctx ih =>
    obtain ⟨c, n, ht, hctx⟩ := ih h
    rcases ht.of_branch with ⟨rfl, ha, hnear, hfar⟩ | ⟨rfl, ha, k, cn, cf, rfl, hnear, hfar⟩
    · exact ⟨_, _, hnear, .red ha hfar hctx⟩
    · exact ⟨_, _, hnear, .black ha hfar hctx⟩

/-! ## Recolouring -/

theorem Balanced.congr (h : Balanced color c n t) (heq : ∀ a ∈ inorder t, color' a = color a) :
    Balanced color' c n t := by
  induction h with
  | nil => exact .nil
  | red ha _ _ ihl ihr =>
    exact .red ((heq _ (by simp [inorder])).trans ha)
      (ihl fun b hb => heq b (by simp [inorder, hb]))
      (ihr fun b hb => heq b (by simp [inorder, hb]))
  | black ha _ _ ihl ihr =>
    exact .black ((heq _ (by simp [inorder])).trans ha)
      (ihl fun b hb => heq b (by simp [inorder, hb]))
      (ihr fun b hb => heq b (by simp [inorder, hb]))

theorem Fits.congr (h : Fits color c n ctx) (heq : ∀ a ∈ labels ctx, color' a = color a) :
    Fits color' c n ctx := by
  induction h with
  | root => exact .root
  | red ha hs _ ih =>
    exact .red ((heq _ (mem_labels_cons.mpr (.inl rfl))).trans ha)
      (hs.congr fun b hb => heq b (mem_labels_cons.mpr (.inr (.inl hb))))
      (ih fun b hb => heq b (mem_labels_cons.mpr (.inr (.inr hb))))
  | black ha hs _ ih =>
    exact .black ((heq _ (mem_labels_cons.mpr (.inl rfl))).trans ha)
      (hs.congr fun b hb => heq b (mem_labels_cons.mpr (.inr (.inl hb))))
      (ih fun b hb => heq b (mem_labels_cons.mpr (.inr (.inr hb))))

/-- Another node of the same colour in place of one on the path. -/
theorem Fits.relabel {f : Frame α} {a : α} {ctx ctx' : Context α}
    (h : Fits color c n (ctx ++ f :: ctx')) (ha : color' a = color f.label)
    (heq : ∀ b ≠ a, color' b = color b) (hmem : a ∉ labels (ctx ++ f :: ctx')) :
    Fits color' c n (ctx ++ ⟨f.side, a, f.sibling⟩ :: ctx') := by
  have hagree : ∀ {l : List α}, a ∉ l → ∀ b ∈ l, color' b = color b :=
    fun hl b hb => heq b (ne_of_mem_of_not_mem hb hl)
  induction ctx generalizing c n with
  | nil =>
    simp only [List.nil_append, mem_labels_cons, not_or] at hmem
    obtain ⟨-, hsib, hctx⟩ := hmem
    cases h with
    | red hc hs h => exact .red (ha.trans hc) (hs.congr (hagree hsib)) (h.congr (hagree hctx))
    | black hc hs h => exact .black (ha.trans hc) (hs.congr (hagree hsib)) (h.congr (hagree hctx))
  | cons g ctx ih =>
    simp only [List.cons_append, mem_labels_cons, not_or] at hmem
    obtain ⟨hg, hsib, hctx⟩ := hmem
    cases h with
    | red hc hs h =>
      exact .red ((heq _ (Ne.symm hg)).trans hc) (hs.congr (hagree hsib)) (ih h hctx)
    | black hc hs h =>
      exact .black ((heq _ (Ne.symm hg)).trans hc) (hs.congr (hagree hsib)) (ih h hctx)

variable [DecidableEq α]

theorem balanced_update {a : α} (ha : a ∉ inorder t) (ca : Color) :
    Balanced (Function.update color a ca) c n t ↔ Balanced color c n t := by
  have heq : ∀ b ∈ inorder t, Function.update color a ca b = color b := fun b hb =>
    Function.update_of_ne (ne_of_mem_of_not_mem hb ha) _ _
  exact ⟨fun h => h.congr fun b hb => (heq b hb).symm, fun h => h.congr heq⟩

theorem fits_update {a : α} (ha : a ∉ labels ctx) (ca : Color) :
    Fits (Function.update color a ca) c n ctx ↔ Fits color c n ctx := by
  have heq : ∀ b ∈ labels ctx, Function.update color a ca b = color b := fun b hb =>
    Function.update_of_ne (ne_of_mem_of_not_mem hb ha) _ _
  exact ⟨fun h => h.congr fun b hb => (heq b hb).symm, fun h => h.congr heq⟩

/-! ## The textbook properties -/

omit [DecidableEq α]

/-- The number of black nodes on each path from the root to an empty tree. -/
def blackCounts (color : α → Color) : BinaryTree α → List ℕ
  | .nil => [0]
  | .node a l r =>
    (blackCounts color l ++ blackCounts color r).map (· + if color a = .black then 1 else 0)

/-- All paths have as many black nodes. -/
theorem Balanced.blackCounts (h : Balanced color c n t) :
    ∀ k ∈ Foundation.blackCounts color t, k = n := by
  induction h with
  | nil => simp [Foundation.blackCounts]
  | red ha _ _ ihl ihr =>
    simp only [Foundation.blackCounts, List.mem_map, List.mem_append, ha]
    rintro k ⟨j, hj | hj, rfl⟩
    · simp [ihl j hj]
    · simp [ihr j hj]
  | black ha _ _ ihl ihr =>
    simp only [Foundation.blackCounts, List.mem_map, List.mem_append, ha]
    rintro k ⟨j, hj | hj, rfl⟩
    · simp [ihl j hj]
    · simp [ihr j hj]

end Foundation
