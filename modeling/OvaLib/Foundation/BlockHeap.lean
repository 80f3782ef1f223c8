import Mathlib.Algebra.Order.Group.Multiset
import Mathlib.Data.Multiset.ZeroCons
import Mathlib.Data.Multiset.UnionInter
import Mathlib.Tactic.Common

/-!
# Programs on a heap of blocks

A heap has blocks of cells, each at an address of its own. A program that touches a cell which is
not there, in a block that was freed or beyond the end of one, has no result. An allocation may
fail; a heap knows which of the attempts will, and how many have been made.

What a heap holds is a multiset of blocks, and the sum of two multisets is what separates them: a
rule for a program speaks of the blocks that it changes and of those it reads, and the rest of the
multiset is whatever it may be. A block that is only read need not be split off, so one block may be
read under two names.

## Failing allocations

A rule comes with a proposition `sure`: where it holds, no attempt fails. A function that gives up
without memory has a rule whose postcondition for giving up says `¬ sure`. So one rule serves both
for the runs in which allocations may fail, with `sure` false, and for those in which none does.

That is a statement about all attempts to come, and a caller wants one about the attempts of the
call: it gave up, so one of *them* has failed. The second follows from the first because a run
depends on no other outcomes than those of its own attempts, which `Yields` records and every rule
keeps. Let the attempts of a run have succeeded; with all later ones set to succeed too it is the
same run, and to that one the rule applies with `sure` true. This is `Runs.granted`.

## Main results

* `runs_readCell`, `runs_writeCell`, `runs_allocateBlock`, `runs_freeBlock`,
  `runs_reallocateBlock` — the rules for the primitives
* `runs_bind`, `Runs.mono` — how programs are put together
* `runs_strides`, `runs_forRange` — the rules for loops
* `Runs.granted` — what a run does when its own attempts succeed

## Scope

A program is a function of the heap, so it is deterministic, and there is one of it at a time.
Addresses are never handed out twice; a program that compared addresses of dead blocks would be
modelled wrongly.
-/

namespace Foundation

variable {γ ρ ρ' σ : Type}

/-! ## The heap -/

/-- A heap. No address from `fresh` on has been handed out. -/
structure Heap (γ : Type) where
  /-- The cells at an address, if the block is live. -/
  block : ℕ → Option (List γ)
  fresh : ℕ
  /-- The outcomes of the allocation attempts, from the first on. -/
  outcome : ℕ → Bool
  /-- How many attempts have been made. -/
  attempts : ℕ
  block_fresh : ∀ b, fresh ≤ b → block b = none

namespace Heap

/-- The heap without blocks. -/
def empty (outcome : ℕ → Bool) : Heap γ := ⟨fun _ => none, 0, outcome, 0, fun _ _ => rfl⟩

/-- An attempt is made. -/
def tick (h : Heap γ) : Heap γ := ⟨h.block, h.fresh, h.outcome, h.attempts + 1, h.block_fresh⟩

/-- The heap with other outcomes. -/
def withOutcome (h : Heap γ) (o : ℕ → Bool) : Heap γ :=
  ⟨h.block, h.fresh, o, h.attempts, h.block_fresh⟩

theorem block_put (h : Heap γ) {b : ℕ} (hb : b < h.fresh) (cells : Option (List γ)) :
    ∀ c, h.fresh ≤ c → Function.update h.block b cells c = none := by
  intro c hc
  rw [Function.update_of_ne (Nat.ne_of_gt (Nat.lt_of_lt_of_le hb hc)), h.block_fresh c hc]

/-- The cells of a block that was handed out are changed, or it is freed. -/
def put (h : Heap γ) (b : ℕ) (hb : b < h.fresh) (cells : Option (List γ)) : Heap γ :=
  ⟨Function.update h.block b cells, h.fresh, h.outcome, h.attempts, h.block_put hb cells⟩

theorem block_push (h : Heap γ) (cells : List γ) :
    ∀ c, h.fresh + 1 ≤ c → Function.update h.block h.fresh (some cells) c = none := by
  intro c hc
  rw [Function.update_of_ne (Nat.ne_of_gt hc), h.block_fresh c (Nat.le_of_lt hc)]

/-- A block is handed out. -/
def push (h : Heap γ) (cells : List γ) : Heap γ :=
  ⟨Function.update h.block h.fresh (some cells), h.fresh + 1, h.outcome, h.attempts,
    h.block_push cells⟩

section

variable (h : Heap γ) {b c : ℕ} (hb : b < h.fresh) (cells : Option (List γ)) (cells' : List γ)

@[simp] theorem put_self : (h.put b hb cells).block b = cells := Function.update_self ..

@[simp] theorem put_of_ne (hc : c ≠ b) : (h.put b hb cells).block c = h.block c :=
  Function.update_of_ne hc ..

@[simp] theorem push_self : (h.push cells').block h.fresh = some cells' := Function.update_self ..

@[simp] theorem push_of_ne (hc : c ≠ h.fresh) : (h.push cells').block c = h.block c :=
  Function.update_of_ne hc ..

end

/-- Every attempt to come succeeds. -/
def Always (h : Heap γ) : Prop := ∀ n, h.attempts ≤ n → h.outcome n = true

/-- Every attempt made from one heap to the other succeeds. -/
def Granted (h h' : Heap γ) : Prop := ∀ n, h.attempts ≤ n → n < h'.attempts → h.outcome n = true

theorem lt_fresh {h : Heap γ} {b : ℕ} {cells : List γ} (hb : h.block b = some cells) :
    b < h.fresh := by
  by_contra hle
  rw [h.block_fresh b (Nat.le_of_not_lt hle)] at hb
  cases hb

end Heap

/-- A program on a heap; `none` is a run that touches what is not there. -/
abbrev Prog (γ : Type) := StateT (Heap γ) Option

/-- The cell of a block. -/
def readCell (b i : ℕ) : Prog γ γ := fun h => ((h.block b).bind (·[i]?)).map (·, h)

/-- A cell of a block is assigned. -/
def writeCell (b i : ℕ) (v : γ) : Prog γ Unit := fun h =>
  if hb : b < h.fresh then
    match h.block b with
    | some cells => if i < cells.length then some ((), h.put b hb (some (cells.set i v))) else none
    | none => none
  else none

/-- A block of these cells is allocated. -/
def allocateBlock (cells : List γ) : Prog γ (Option ℕ) := fun h =>
  if h.outcome h.attempts then some (some h.fresh, h.tick.push cells) else some (none, h.tick)

/-- A block of automatic storage, which is always to be had. -/
def enterBlock (cells : List γ) : Prog γ ℕ := fun h => some (h.fresh, h.push cells)

/-- A block is freed. -/
def freeBlock (b : ℕ) : Prog γ Unit := fun h =>
  if hb : b < h.fresh then
    match h.block b with
    | some _ => some ((), h.put b hb none)
    | none => none
  else none

/-- All cells of a block. -/
def blockCells (b : ℕ) : Prog γ (List γ) := fun h => (h.block b).map (·, h)

/-- `realloc`: a block of `n` cells, the first of them those of another block, which is freed; the
others are `raw`. -/
def reallocateBlock (b n : ℕ) (raw : γ) : Prog γ (Option ℕ) := do
  let cells ← blockCells b
  match ← allocateBlock (cells.take n ++ List.replicate (n - cells.length) raw) with
  | none => pure none
  | some b' =>
    freeBlock b
    pure (some b')

/-! ## What a heap holds -/

/-- The blocks of the heap are these, and they are at different addresses. -/
def Heap.Holds (h : Heap γ) (s : Multiset (ℕ × List γ)) : Prop :=
  (s.map Prod.fst).Nodup ∧ ∀ b cells, h.block b = some cells ↔ (b, cells) ∈ s

/-- One block. -/
def pointsTo (b : ℕ) (cells : List γ) : Multiset (ℕ × List γ) := {(b, cells)}

variable {h : Heap γ} {s s' F : Multiset (ℕ × List γ)} {b i n : ℕ} {cells : List γ} {v : γ}

theorem mem_pointsTo_add {c : ℕ} {cs : List γ} :
    (c, cs) ∈ pointsTo b cells + F ↔ (c = b ∧ cs = cells) ∨ (c, cs) ∈ F := by
  rw [Multiset.mem_add, pointsTo, Multiset.mem_singleton, Prod.mk_inj]

/-- The third part of a sum comes to the front. -/
theorem add_third_comm {M : Type*} [AddCommMonoid M] (a b c d : M) :
    a + (b + (c + d)) = c + (a + (b + d)) := by
  rw [add_left_comm b, add_left_comm]

/-- The fourth part of a sum comes to the front. -/
theorem add_fourth_comm {M : Type*} [AddCommMonoid M] (a b c d e : M) :
    a + (b + (c + (d + e))) = d + (a + (b + (c + e))) := by
  rw [add_third_comm b, add_left_comm]

theorem nodup_pointsTo_add : ((pointsTo b cells + F).map Prod.fst).Nodup ↔
    b ∉ F.map Prod.fst ∧ (F.map Prod.fst).Nodup := by
  rw [pointsTo, Multiset.singleton_add, Multiset.map_cons, Multiset.nodup_cons]

theorem Heap.holds_empty (outcome : ℕ → Bool) : (empty outcome : Heap γ).Holds 0 := by
  refine ⟨by simp, fun b cells => ?_⟩
  simp [empty]

theorem Heap.Holds.block_eq (hh : h.Holds s) (hb : pointsTo b cells ≤ s) :
    h.block b = some cells := by
  rw [hh.2]
  exact Multiset.singleton_le.mp hb

/-- The address of a block is that of no other. -/
theorem Heap.Holds.notMem (hh : h.Holds (pointsTo b cells + F)) (cells' : List γ) :
    (b, cells') ∉ F := by
  intro hb
  exact (nodup_pointsTo_add.mp hh.1).1 (Multiset.mem_map.mpr ⟨_, hb, rfl⟩)

/-- A block that is replaced. -/
theorem Heap.Holds.put (hh : h.Holds (pointsTo b cells + F)) (hb : b < h.fresh)
    (cells' : List γ) : (h.put b hb (some cells')).Holds (pointsTo b cells' + F) := by
  refine ⟨nodup_pointsTo_add.mpr (nodup_pointsTo_add.mp hh.1), fun c cs => ?_⟩
  rw [mem_pointsTo_add]
  by_cases hc : c = b
  · subst hc
    have hnone := hh.notMem cs
    rw [Heap.put_self, Option.some_inj]
    tauto
  · rw [Heap.put_of_ne _ _ _ hc, hh.2, mem_pointsTo_add]
    tauto

/-- A block that is freed. -/
theorem Heap.Holds.drop (hh : h.Holds (pointsTo b cells + F)) (hb : b < h.fresh) :
    (h.put b hb none).Holds F := by
  refine ⟨(nodup_pointsTo_add.mp hh.1).2, fun c cs => ?_⟩
  by_cases hc : c = b
  · subst hc
    rw [Heap.put_self]
    exact iff_of_false (by simp) (hh.notMem cs)
  · rw [Heap.put_of_ne _ _ _ hc, hh.2, mem_pointsTo_add]
    tauto

/-- A block that is handed out. -/
theorem Heap.Holds.push (hh : h.Holds s) (cells : List γ) :
    (h.push cells).Holds (pointsTo h.fresh cells + s) := by
  have hfresh : ∀ cs, (h.fresh, cs) ∉ s := by
    intro cs hmem
    rw [← hh.2, h.block_fresh _ (Nat.le_refl _)] at hmem
    cases hmem
  refine ⟨nodup_pointsTo_add.mpr ⟨fun hmem => ?_, hh.1⟩, fun c cs => ?_⟩
  · obtain ⟨⟨c, cs⟩, hc, rfl⟩ := Multiset.mem_map.mp hmem
    exact hfresh cs hc
  · rw [mem_pointsTo_add]
    by_cases hc : c = h.fresh
    · subst hc
      have hnone := hfresh cs
      rw [Heap.push_self, Option.some_inj]
      tauto
    · rw [Heap.push_of_ne _ _ hc, hh.2]
      tauto

/-! ## What programs do -/

/-- From `h` the program ends with `r` in `h'`, and of all outcomes only those of the attempts that
it makes matter. -/
structure Yields (p : Prog γ ρ) (h : Heap γ) (r : ρ) (h' : Heap γ) : Prop where
  outcome_eq : h'.outcome = h.outcome
  le : h.attempts ≤ h'.attempts
  run : ∀ o, (∀ n, h.attempts ≤ n → n < h'.attempts → o n = h.outcome n) →
    p (h.withOutcome o) = some (r, h'.withOutcome o)

section

variable {h' h'' : Heap γ} {p : Prog γ ρ} {f : ρ → Prog γ ρ'} {r : ρ} {r' : ρ'}

/-- A program that makes no attempt. -/
theorem yields_silent (houtcome : h'.outcome = h.outcome) (hattempts : h'.attempts = h.attempts)
    (hrun : ∀ o, p (h.withOutcome o) = some (r, h'.withOutcome o)) : Yields p h r h' :=
  ⟨houtcome, hattempts.ge, fun o _ => hrun o⟩

theorem Yields.eq (hp : Yields p h r h') : p h = some (r, h') := by
  have hrun := hp.run h.outcome fun n _ _ => rfl
  rwa [show h.withOutcome h.outcome = h from rfl, ← hp.outcome_eq] at hrun

/-- The outcomes are those of the first program and then those of the second. -/
theorem Yields.bind (hp : Yields p h r h') (hf : Yields (f r) h' r' h'') :
    Yields (p >>= f) h r' h'' := by
  refine ⟨hf.outcome_eq.trans hp.outcome_eq, hp.le.trans hf.le, fun o ho => ?_⟩
  have hfirst := hp.run o fun n hn hn' => ho n hn (hn'.trans_le hf.le)
  have hsecond := hf.run o fun n hn hn' => by
    rw [hp.outcome_eq]
    exact ho n (hp.le.trans hn) hn'
  show (p (h.withOutcome o)).bind _ = _
  rw [hfirst]
  exact hsecond

theorem Yields.always (hp : Yields p h r h') (halways : h.Always) : h'.Always := by
  intro n hn
  rw [hp.outcome_eq]
  exact halways n (hp.le.trans hn)

end

/-- From a heap that holds `s` a program has a result, which with the blocks then held is as `Q`
says. Where `sure` holds no allocation fails. -/
def Runs (sure : Prop) (p : Prog γ ρ) (s : Multiset (ℕ × List γ))
    (Q : ρ → Multiset (ℕ × List γ) → Prop) : Prop :=
  ∀ h : Heap γ, h.Holds s → (sure → h.Always) →
    ∃ r h' s', Yields p h r h' ∧ h'.Holds s' ∧ Q r s'

variable {sure : Prop} {p : Prog γ ρ} {f : ρ → Prog γ ρ'}
  {Q Q' : ρ → Multiset (ℕ × List γ) → Prop} {P : ρ' → Multiset (ℕ × List γ) → Prop}

/-- **A run whose own attempts succeed** does what it does where no attempt ever fails. -/
theorem Runs.granted {Q : Prop → ρ → Multiset (ℕ × List γ) → Prop}
    (hp : ∀ sure, Runs sure p s (Q sure)) (hh : h.Holds s) :
    ∃ r h' s', Yields p h r h' ∧ h'.Holds s' ∧ Q (h.Granted h') r s' := by
  obtain ⟨r, h', s', hrun, hh', hQ⟩ := hp False h hh False.elim
  by_cases hgranted : h.Granted h'
  · -- the same run, with the attempts after it set to succeed
    have hall := hrun.run (fun _ => true) fun n hn hn' => (hgranted n hn hn').symm
    obtain ⟨r₁, h₁, s₁, hrun₁, hh₁, hQ₁⟩ :=
      hp True (h.withOutcome fun _ => true) hh fun _ _ _ => rfl
    obtain ⟨rfl, rfl⟩ := Prod.mk.inj (Option.some.inj (hrun₁.eq.symm.trans hall))
    refine ⟨r₁, h', s₁, hrun, hh₁, ?_⟩
    rw [eq_true hgranted]
    exact hQ₁
  · refine ⟨r, h', s', hrun, hh', ?_⟩
    rw [eq_false hgranted]
    exact hQ

theorem runs_pure {r : ρ} (hQ : Q r s) : Runs sure (pure r) s Q :=
  fun h hh _ => ⟨r, h, s, yields_silent rfl rfl fun _ => rfl, hh, hQ⟩

/-- **One program after another.** -/
theorem runs_bind (hp : Runs sure p s fun r s' => Runs sure (f r) s' P) :
    Runs sure (p >>= f) s P := by
  intro h hh hsure
  obtain ⟨r, h', s', hrun, hh', hf⟩ := hp h hh hsure
  obtain ⟨r', h'', s'', hrun', hrest⟩ := hf h' hh' fun hs => hrun.always (hsure hs)
  exact ⟨r', h'', s'', hrun.bind hrun', hrest⟩

theorem Runs.mono (hp : Runs sure p s Q) (hQ : ∀ r s', Q r s' → Q' r s') : Runs sure p s Q' := by
  intro h hh hsure
  obtain ⟨r, h', s', hrun, hh', hr⟩ := hp h hh hsure
  exact ⟨r, h', s', hrun, hh', hQ r s' hr⟩

/-- The addresses of the blocks are different at the end as well. -/
theorem Runs.nodup (hp : Runs sure p s Q) :
    Runs sure p s fun r s' => Q r s' ∧ (s'.map Prod.fst).Nodup := by
  intro h hh hsure
  obtain ⟨r, h', s', hrun, hh', hr⟩ := hp h hh hsure
  exact ⟨r, h', s', hrun, hh', hr, hh'.1⟩

theorem runs_readCell {Q : γ → Multiset (ℕ × List γ) → Prop} (hb : pointsTo b cells ≤ s)
    (hv : cells[i]? = some v) (hQ : Q v s) : Runs sure (readCell b i) s Q := by
  intro h hh _
  refine ⟨v, h, s, yields_silent rfl rfl fun o => ?_, hh, hQ⟩
  show ((h.block b).bind (·[i]?)).map (·, h.withOutcome o) = _
  rw [hh.block_eq hb, Option.bind_some, hv]
  rfl

theorem runs_blockCells {Q : List γ → Multiset (ℕ × List γ) → Prop} (hb : pointsTo b cells ≤ s)
    (hQ : Q cells s) : Runs sure (blockCells b) s Q := by
  intro h hh _
  refine ⟨cells, h, s, yields_silent rfl rfl fun o => ?_, hh, hQ⟩
  show (h.block b).map (·, h.withOutcome o) = _
  rw [hh.block_eq hb]
  rfl

theorem runs_writeCell {Q : Unit → Multiset (ℕ × List γ) → Prop} (hs : s = pointsTo b cells + F)
    (hi : i < cells.length) (hQ : Q () (pointsTo b (cells.set i v) + F)) :
    Runs sure (writeCell b i v) s Q := by
  subst hs
  intro h hh _
  have hb : h.block b = some cells := hh.block_eq (Multiset.le_add_right _ _)
  have hlt := Heap.lt_fresh hb
  refine ⟨(), h.put b hlt (some (cells.set i v)), _, yields_silent rfl rfl fun o => ?_,
    hh.put hlt (cells.set i v), hQ⟩
  have hb' : (h.withOutcome o).block b = some cells := hb
  rw [writeCell, dif_pos (Heap.lt_fresh hb'), hb']
  exact if_pos hi

theorem runs_allocateBlock {Q : Option ℕ → Multiset (ℕ × List γ) → Prop}
    (hnone : ¬ sure → Q none s) (hsome : ∀ b, Q (some b) (pointsTo b cells + s)) :
    Runs sure (allocateBlock cells) s Q := by
  intro h hh hsure
  have hle : h.attempts ≤ h.tick.attempts := Nat.le_succ _
  cases hout : h.outcome h.attempts with
  | false =>
    refine ⟨none, h.tick, s, ⟨rfl, hle, fun o ho => ?_⟩, hh, hnone fun hs => ?_⟩
    · have ho' := (ho _ le_rfl (Nat.lt_succ_self _)).trans hout
      rw [allocateBlock]
      exact if_neg (Bool.eq_false_iff.mp ho')
    · rw [hsure hs _ le_rfl] at hout
      cases hout
  | true =>
    refine ⟨some h.fresh, h.tick.push cells, _, ⟨rfl, hle, fun o ho => ?_⟩,
      Heap.Holds.push (h := h.tick) hh cells, hsome h.fresh⟩
    have ho' := (ho _ le_rfl (Nat.lt_succ_self _)).trans hout
    rw [allocateBlock]
    exact if_pos ho'

theorem runs_enterBlock {Q : ℕ → Multiset (ℕ × List γ) → Prop}
    (hQ : ∀ b, Q b (pointsTo b cells + s)) : Runs sure (enterBlock cells) s Q := by
  intro h hh _
  exact ⟨h.fresh, h.push cells, _, yields_silent rfl rfl fun _ => rfl, hh.push cells, hQ h.fresh⟩

theorem runs_freeBlock {Q : Unit → Multiset (ℕ × List γ) → Prop} (hs : s = pointsTo b cells + F)
    (hQ : Q () F) : Runs sure (freeBlock b) s Q := by
  subst hs
  intro h hh _
  have hb : h.block b = some cells := hh.block_eq (Multiset.le_add_right _ _)
  have hlt := Heap.lt_fresh hb
  refine ⟨(), h.put b hlt none, _, yields_silent rfl rfl fun o => ?_, hh.drop hlt, hQ⟩
  have hb' : (h.withOutcome o).block b = some cells := hb
  rw [freeBlock, dif_pos (Heap.lt_fresh hb'), hb']
  rfl

theorem runs_reallocateBlock {Q : Option ℕ → Multiset (ℕ × List γ) → Prop}
    (hs : s = pointsTo b cells + F) {raw : γ} (hnone : ¬ sure → Q none s)
    (hsome : ∀ b', Q (some b')
      (pointsTo b' (cells.take n ++ List.replicate (n - cells.length) raw) + F)) :
    Runs sure (reallocateBlock b n raw) s Q := by
  subst hs
  refine runs_bind (runs_blockCells (Multiset.le_add_right _ _) ?_)
  refine runs_bind (runs_allocateBlock (fun hsure => runs_pure (hnone hsure)) fun b' => ?_)
  refine runs_bind (runs_freeBlock (add_left_comm _ _ _) ?_)
  exact runs_pure (hsome b')

/-! ## Loops -/

/-- `for (; i + width <= n; i += width)`, with local variables and with the counter at its end. -/
def strides (width n : ℕ) (body : ℕ → σ → Prog γ σ) : ℕ → ℕ → σ → Prog γ (ℕ × σ)
  | 0, _, _ => fun _ => none
  | fuel + 1, i, x =>
    if i + width ≤ n then do
      let x ← body i x
      strides width n body fuel (i + width) x
    else pure (i, x)

/-- `for (i = 0; i < n; i++)`, with local variables. -/
def forRange (n : ℕ) (body : ℕ → σ → Prog γ σ) (x : σ) : Prog γ σ := do
  let (_, x) ← strides 1 n body (n + 1) 0 x
  pure x

variable {width fuel : ℕ} {body : ℕ → σ → Prog γ σ} {x : σ}

/-- **The invariant of a loop**, by induction on the turns that are left. -/
theorem runs_strides (Inv : ℕ → σ → Multiset (ℕ × List γ) → Prop) (hwidth : 0 < width)
    (hbody : ∀ i x s, i + width ≤ n → Inv i x s → Runs sure (body i x) s (Inv (i + width)))
    (hfuel : n < i + fuel) (hin : i ≤ n) (hx : Inv i x s) {Q : ℕ × σ → Multiset (ℕ × List γ) → Prop}
    (hQ : ∀ i x s, i ≤ n → n < i + width → Inv i x s → Q (i, x) s) :
    Runs sure (strides width n body fuel i x) s Q := by
  induction fuel generalizing i x s with
  | zero => omega
  | succ fuel ih =>
    rw [strides]
    split
    · next hturn =>
      refine runs_bind ((hbody i x s hturn hx).mono fun x' s' hx' => ?_)
      exact ih (by omega) hturn hx'
    · next hend => exact runs_pure (hQ i x s hin (Nat.lt_of_not_le hend) hx)

theorem runs_forRange (Inv : ℕ → σ → Multiset (ℕ × List γ) → Prop)
    (hbody : ∀ i x s, i < n → Inv i x s → Runs sure (body i x) s (Inv (i + 1))) (hx : Inv 0 x s)
    {Q : σ → Multiset (ℕ × List γ) → Prop} (hQ : ∀ x s, Inv n x s → Q x s) :
    Runs sure (forRange n body x) s Q := by
  refine runs_bind (runs_strides Inv Nat.one_pos hbody (by omega) (Nat.zero_le _) hx ?_)
  intro i x s hin hend hi
  obtain rfl : i = n := by omega
  exact runs_pure (hQ x s hi)

end Foundation
