import OvaLib.Solver.BranchStorage
import OvaLib.Solver.IntegerSound
import OvaLib.Solver.StoredTableau

/-!
# Branch and bound on the heap

The search on the heap follows the search on paper as long as no allocation fails. When one fails a
part of the tree is not searched; but whatever fails, the search touches only live memory and gives
back what it took.

## One induction for both

The rule for the search says two things of the heap it leaves: the array of the incumbent may have
changed and everything else is as it was; and if no allocation failed, the array and the two
variables hold the incumbent of the search on paper. The first does not depend on the second, so the
rule holds in every run. It is proved by induction on the fuel, with the rule for the search of a
child as the hypothesis (`Searches`), and each part of the function has a rule of its own that takes
the rules of the later parts as its continuation.

The bound on rows in the rule is what keeps the capacities of the copies in the range of `int`: a
child has at most one row more than its parent, and each node that is counted uses up one of 10000.

## What a child may touch

A child is a problem of its own, with its own matrix and vectors, so its search needs nothing of its
parent but the array of the incumbent, which it may write, and the offsets, which it reads. Both are
in the memory of the callers. So the rule for a child is stated in any memory that contains the
frame, and says of that memory that it is unchanged; the caller then still has its own problem, its
tableau and its arrays where they were.

The original problem is read by every node for the feasibility test and written by none, so it is
part of the frame too. `contextOf` collects what the search is told of it.

## Main results

* `runs_judgeNode` — what is found out about a node
* `runs_searchFloorChild`, `runs_searchCeilChild` — the children of a node, made and freed
* `runs_bbSolve` — the whole search below a node
-/

namespace OvaLib

namespace Solver

namespace ProblemStorage

open Foundation Matrix.Storage

variable {ρ : Type} {sure : Prop} {s F : Multiset (ℕ × List (Cell ℚ))} {n b : ℕ}
  {x : ℕ → ℚ} {p : ProblemRep} {S : SolvedProblem} {pointer : Option Pointer}

/-- The solution of a problem is in an array of its own. -/
theorem ProblemRep.Represents.solution_block {P : LpProblem} {v : ℚ}
    (h : p.Represents ⟨P, some x, v⟩) : ∃ t, p.fields.solution = start t ∧
      pointsTo t (numbers p.objective.size x) ≤ p.blocks := by
  obtain ⟨-, hnone⟩ | ⟨t, f, g, hsolution, hg, hfg⟩ := h.solution
  · cases hnone
  cases hg
  refine ⟨t, ?_, ?_⟩
  · show p.solutionPointer = start t
    rw [ProblemRep.solutionPointer, hsolution]
    rfl
  · rw [← numbers_congr hfg]
    exact ProblemRep.solution_le hsolution

/-! ## The tests -/

/-- **The integrality test** reads the values one after the other and gives what the test on paper
does. It writes nothing, so no frame is needed: the memory afterwards is the memory before. -/
theorem runs_solutionIsInteger (hx : Reads sure s pointer n x)
    {Q : Bool → Multiset (ℕ × List (Cell ℚ)) → Prop} (hQ : Q (Solver.solutionIsInteger x n) s) :
    Runs sure (solutionIsInteger pointer n) s Q := by
  refine runs_forRange (fun i integer s' => s = s' ∧
    integer = (List.range i).all fun i => isInteger (x i)) ?_ ⟨rfl, rfl⟩ ?_
  · rintro i integer _ hi ⟨rfl, rfl⟩
    rw [List.range_succ, List.all_append]
    split
    · next hbefore =>
      refine runs_bind (hx i hi _ (runs_pure ⟨rfl, ?_⟩))
      rw [hbefore, Bool.true_and, List.all_cons, List.all_nil, Bool.and_true]
    · next hbefore =>
      refine runs_pure ⟨rfl, ?_⟩
      rw [Bool.eq_false_of_not_eq_true hbefore, Bool.false_and]
  · rintro integer _ ⟨rfl, rfl⟩
    exact hQ

/-- **The feasibility test** goes through the rows of the original problem. The rows of the matrix
that the problem does not use are not looked at, and the entries are those of the problem on paper.
-/
theorem runs_checkOriginalFeasibility (hS : p.Represents S) (hp : p.blocks ≤ s)
    (hx : Reads sure s pointer p.objective.size x)
    {Q : Bool → Multiset (ℕ × List (Cell ℚ)) → Prop} (hQ : Q (checkFeasibility S.problem x) s) :
    Runs sure (checkOriginalFeasibility pointer p.objective.size p.constraints.fields
      p.bounds.fields p.constraintCount) s Q := by
  have hcount := p.count_le
  have hcap := p.capacity_le
  have hwidth := p.cols_eq
  refine runs_forRange (fun i feasible s' => s = s' ∧ feasible = (List.range i).all fun i =>
    S.problem.lhs i x ≤ S.problem.bounds i + intTol) ?_ ⟨rfl, rfl⟩ ?_
  -- a row is looked at only when the rows before it hold; after that the flag is carried on
  · rintro i feasible _ hi ⟨rfl, rfl⟩
    rw [List.range_succ, List.all_append]
    split
    · next hbefore =>
      refine runs_bind (runs_forRange (fun j lhs s' => s = s' ∧
        lhs = ∑ k ∈ Finset.range j, S.problem.constraints i k * x k) ?_ ⟨rfl, ?_⟩ ?_)
      · rintro j lhs _ hj ⟨rfl, rfl⟩
        refine runs_bind (MatrixRep.runs_entry (ProblemRep.constraints_le.trans hp) (by omega)
          (by omega) ?_)
        refine runs_bind (hx j hj _ (runs_pure ⟨rfl, ?_⟩))
        rw [Finset.sum_range_succ, hS.constraints i hi j hj]
      · rw [Finset.sum_range_zero]
      · rintro lhs _ ⟨rfl, rfl⟩
        refine runs_bind ((VectorRep.copies_data (ProblemRep.bounds_le.trans hp)).reads i (by omega)
          _ (runs_pure ⟨rfl, ?_⟩))
        rw [hbefore, Bool.true_and, List.all_cons, List.all_nil, Bool.and_true,
          hS.bounds i hi, LpProblem.lhs, hS.variableCount]
        exact decide_eq_decide.mpr not_lt
    · next hbefore =>
      refine runs_pure ⟨rfl, ?_⟩
      rw [Bool.eq_false_of_not_eq_true hbefore, Bool.false_and]
  · rintro feasible _ ⟨rfl, rfl⟩
    rw [← hS.constraintCount]
    exact hQ

/-- **The branching variable.** The loop carries the best score and its index; the function on paper
is the same fold over the indices, so the invariant is that the fold has come as far as the loop. -/
theorem runs_findBranchingVariable (hx : Reads sure s pointer n x)
    {Q : Option ℕ → Multiset (ℕ × List (Cell ℚ)) → Prop}
    (hQ : Q (Solver.findBranchingVariable x n) s) :
    Runs sure (findBranchingVariable pointer n) s Q := by
  refine runs_bind (runs_forRange (fun i best s' => s = s' ∧ best =
    (List.range i).foldl (fun (best : ℚ × Option ℕ) i =>
      if intTol < fractionality (x i) ∧ best.1 < fractionality (x i) then
        (fractionality (x i), some i)
      else best) (0, none)) ?_ ⟨rfl, rfl⟩ ?_)
  · rintro i best _ hi ⟨rfl, rfl⟩
    refine runs_bind (hx i hi _ (runs_pure ⟨rfl, ?_⟩))
    rw [List.range_succ, List.foldl_append, List.foldl_cons, List.foldl_nil]
    rfl
  · rintro best _ ⟨rfl, rfl⟩
    exact runs_pure hQ

/-! ## What is found out about a node -/

/-- What the search on paper finds out about a node with a relaxation: either the node is done with,
and the incumbent may be another one, or there is a variable to branch on. It is that part of the
search on paper which lies between the relaxation and the children, under a name of its own so that
the part of the code between the two can be compared with it. -/
def judge (orig : LpProblem) (R : Relaxation) (offsets : ℕ → ℚ) (objOffset : ℚ)
    (inc : Incumbent) : Incumbent ⊕ ℕ :=
  let objVal := R.objectiveValue + objOffset
  let trueSol := fun i => R.solution i + offsets i
  if isPruned orig.type objVal inc.bestObj then .inl inc
  else if Solver.solutionIsInteger trueSol orig.variableCount && checkFeasibility orig trueSol then
    .inl (if improves orig.type objVal inc.bestObj then
      { inc with
        bestObj := objVal
        bestSol := trueSol
        source := some ⟨R, offsets, objOffset⟩ }
    else inc)
  else
    match Solver.findBranchingVariable trueSol orig.variableCount with
    | none => .inl inc
    | some j => .inr j

/-- The variables and the array of the caller are those of the incumbent on paper. Of the array only
the first `n` cells are meant, and of the incumbent only what the code keeps: where the relaxation
came from is known on paper alone. -/
structure Follows (n : ℕ) (st : SearchVars) (f : ℕ → ℚ) (inc : Incumbent) : Prop where
  bestObj : st.bestObj = inc.bestObj
  nodes : st.nodes = inc.nodes
  /-- The array holds the incumbent. -/
  bestSol : ∀ i < n, f i = inc.bestSol i

/-- What the search on the heap finds out is what the one on paper does. The first kind of outcome
promises this only if no allocation fails, since a node may also be given up for want of memory; the
second needs no such promise, because a variable is found only after all allocations have succeeded.
-/
inductive Judged (sure : Prop) (n : ℕ) (st : SearchVars) (f : ℕ → ℚ) (trueSol : ℕ → ℚ)
    (paper : Incumbent → Incumbent ⊕ ℕ) : Judgement → (ℕ → ℚ) → Prop
  | finished (st' : SearchVars) (f' : ℕ → ℚ) : st'.nodes = st.nodes →
    (sure → ∀ inc, Follows n st f inc → ∃ inc', paper inc = .inl inc' ∧ Follows n st' f' inc') →
    Judged sure n st f trueSol paper (.finished st') f'
  | branch (j : ℕ) : j < n → (∀ inc, Follows n st f inc → paper inc = .inr j) →
    Judged sure n st f trueSol paper (.branch j (trueSol j)) f

section

variable {R : Relaxation} {offsets : ℕ → ℚ} {objOffset : ℚ} {inc : Incumbent} {st : SearchVars}
  {f : ℕ → ℚ} {orig : LpProblem}

/-- The bound tests. -/
theorem isPruned_iff {v w : ℚ} : isPruned orig.type v w = true ↔
    (decide (orig.type = .max) = true ∧ v ≤ w ∧ w > -dblMax) ∨
      (¬ decide (orig.type = .max) = true ∧ v ≥ w ∧ w < dblMax) := by
  cases horig : orig.type <;> simp [isPruned]

theorem improves_iff {v w : ℚ} : improves orig.type v w = true ↔
    (if decide (orig.type = .max) = true then v > w else v < w) := by
  cases horig : orig.type <;> simp [improves]

/-- What the search is told, when the original problem is on the heap and the incumbent is in the
array at `b`. The fields are the arguments that `bb_solve` hands on unchanged to its children. -/
def contextOf (b : ℕ) (p : ProblemRep) (S : SolvedProblem) : SearchContext where
  bestSol := start b
  numVars := p.objective.size
  isMax := decide (S.problem.type = .max)
  origConstraints := p.constraints.fields
  origBounds := p.bounds.fields
  origNumConstr := p.constraintCount

theorem runs_isAccepted (hS : p.Represents S) (hp : p.blocks ≤ s)
    (hx : Reads sure s pointer p.objective.size x)
    {Q : Bool → Multiset (ℕ × List (Cell ℚ)) → Prop}
    (hQ : Q (Solver.solutionIsInteger x S.problem.variableCount && checkFeasibility S.problem x)
      s) : Runs sure (isAccepted (contextOf b p S) pointer) s Q := by
  rw [hS.variableCount] at hQ
  refine runs_bind (runs_solutionIsInteger hx ?_)
  split
  · next hinteger =>
    refine runs_checkOriginalFeasibility hS hp hx ?_
    rwa [hinteger, Bool.true_and] at hQ
  · next hinteger =>
    rw [Bool.eq_false_of_not_eq_true hinteger, Bool.false_and] at hQ
    exact runs_pure hQ

/-- **The end of the judgement**, for a node that is not pruned. The values are in an array at `t`,
which is given back in every case; only the array of the incumbent may be written. -/
theorem runs_concludeNode (hS : p.Represents S) {t : ℕ}
    (hopen : ∀ inc, Follows p.objective.size st f inc →
      ¬ isPruned S.problem.type (R.objectiveValue + objOffset) inc.bestObj = true)
    (hs : s = pointsTo t (numbers p.objective.size fun i => R.solution i + offsets i) +
      (pointsTo b (numbers p.objective.size f) + F)) :
    Runs sure (concludeNode (contextOf b p S) (start t) (R.objectiveValue + objOffset) st
      (Solver.solutionIsInteger (fun i => R.solution i + offsets i) S.problem.variableCount &&
        checkFeasibility S.problem fun i => R.solution i + offsets i)) s fun outcome s' =>
      ∃ f', s' = pointsTo b (numbers p.objective.size f') + F ∧
        Judged sure p.objective.size st f (fun i => R.solution i + offsets i)
          (judge S.problem R offsets objOffset) outcome f' := by
  subst hs
  have hvars := hS.variableCount
  have hnum : (contextOf b p S).numVars = p.objective.size := rfl
  have hlive := Multiset.le_add_right (pointsTo t (numbers p.objective.size fun i =>
    R.solution i + offsets i)) (pointsTo b (numbers p.objective.size f) + F)
  rw [concludeNode, hnum]
  split
  -- integral and feasible: the node is done, and becomes the incumbent when it is better
  · next haccepted =>
    have hjudge : ∀ inc, Follows p.objective.size st f inc →
        judge S.problem R offsets objOffset inc =
          .inl (if improves S.problem.type (R.objectiveValue + objOffset) inc.bestObj then
            { inc with
              bestObj := R.objectiveValue + objOffset
              bestSol := fun i => R.solution i + offsets i
              source := some ⟨R, offsets, objOffset⟩ }
          else inc) := by
      intro inc hinc
      rw [judge, if_neg (hopen inc hinc), if_pos haccepted]
    by_cases hbetter : if (contextOf b p S).isMax = true then
        R.objectiveValue + objOffset > st.bestObj
        else R.objectiveValue + objOffset < st.bestObj
    -- the values are copied into the array of the caller before their own array goes
    · rw [if_pos hbetter]
      refine runs_bind (runs_copyBuffer (add_left_comm _ _ _) (length_numbers _ _)
        (Multiset.le_add_right _ _) ?_)
      refine runs_bind (runs_freeStart (add_left_comm _ _ _) (runs_pure ⟨_, rfl, .finished _ _ rfl
        fun _ inc hinc => ⟨_, (hjudge inc hinc).trans (congrArg _ (if_pos ?_)),
          rfl, hinc.nodes, fun i _ => rfl⟩⟩))
      rw [← hinc.bestObj, improves_iff]
      exact hbetter
    · rw [if_neg hbetter]
      refine runs_bind (runs_freeStart rfl (runs_pure ⟨f, rfl, .finished st f rfl
        fun _ inc hinc => ⟨inc, ?_, hinc⟩⟩))
      rw [hjudge inc hinc, if_neg]
      rw [← hinc.bestObj, improves_iff]
      exact hbetter
  -- otherwise a variable to branch on is looked for; without one the node is given up
  · next haccepted =>
    refine runs_bind (runs_findBranchingVariable (reads_numbers hlive) ?_)
    rcases hfound : Solver.findBranchingVariable (fun i => R.solution i + offsets i)
        p.objective.size with _ | j
    · refine runs_bind (runs_freeStart rfl (runs_pure ⟨f, rfl, .finished st f rfl
        fun _ inc hinc => ⟨inc, ?_, hinc⟩⟩))
      rw [judge, if_neg (hopen inc hinc), if_neg haccepted, hvars, hfound]
    · have hj := findBranchingVariable_lt hfound
      refine runs_bind (reads_numbers hlive j hj _ ?_)
      refine runs_bind (runs_freeStart rfl (runs_pure ⟨f, rfl, .branch j hj fun inc hinc => ?_⟩))
      rw [judge, if_neg (hopen inc hinc), if_neg haccepted, hvars, hfound]

/-- **What is found out about a node.** Only the array of the incumbent may change: the values
shifted by the offsets are in an array that is allocated, read and freed here. When that allocation
fails the node is given up, which is why the answer agrees with the one on paper only if none does.
-/
theorem runs_judgeNode (hS : p.Represents S) {impl : ProblemFields} {bs o : ℕ}
    (hsolution : impl.solution = start bs) (hvalue : impl.objectiveValue = R.objectiveValue)
    (hs : s = pointsTo b (numbers p.objective.size f) + F) (hp : p.blocks ≤ F)
    (hx : pointsTo bs (numbers p.objective.size R.solution) ≤ F)
    (ho : pointsTo o (numbers p.objective.size offsets) ≤ F) :
    Runs sure (judgeNode (contextOf b p S) impl (start o) objOffset st) s fun outcome s' =>
      ∃ f', s' = pointsTo b (numbers p.objective.size f') + F ∧
        Judged sure p.objective.size st f (fun i => R.solution i + offsets i)
          (judge S.problem R offsets objOffset) outcome f' := by
  subst hs
  have hvars := hS.variableCount
  rw [judgeNode, hvalue]
  have hpruned : ∀ inc, Follows p.objective.size st f inc →
      isPruned S.problem.type (R.objectiveValue + objOffset) inc.bestObj = true →
      judge S.problem R offsets objOffset inc = .inl inc := by
    intro inc hinc hprune
    rw [judge, if_pos hprune]
  -- the two bound tests of the source, for a maximum and for a minimum
  by_cases hmax : (contextOf b p S).isMax = true ∧ R.objectiveValue + objOffset ≤ st.bestObj ∧
      st.bestObj > -dblMax
  · rw [if_pos hmax]
    refine runs_pure ⟨f, rfl, .finished st f rfl fun _ inc hinc => ⟨inc, hpruned inc hinc ?_, hinc⟩⟩
    rw [← hinc.bestObj]
    exact isPruned_iff.mpr (.inl hmax)
  rw [if_neg hmax]
  by_cases hmin : ¬ (contextOf b p S).isMax = true ∧
      R.objectiveValue + objOffset ≥ st.bestObj ∧ st.bestObj < dblMax
  · rw [if_pos hmin]
    refine runs_pure ⟨f, rfl, .finished st f rfl fun _ inc hinc => ⟨inc, hpruned inc hinc ?_, hinc⟩⟩
    rw [← hinc.bestObj]
    exact isPruned_iff.mpr (.inr hmin)
  rw [if_neg hmin]
  -- neither fires, so the node is open for the incumbent on paper as well
  have hopen : ∀ inc, Follows p.objective.size st f inc →
      ¬ isPruned S.problem.type (R.objectiveValue + objOffset) inc.bestObj = true := by
    intro inc hinc hprune
    rw [← hinc.bestObj, isPruned_iff] at hprune
    exact hprune.elim hmax hmin
  have hnum : (contextOf b p S).numVars = p.objective.size := rfl
  rw [hnum]
  refine runs_bind (runs_calloc (fun hsure => ?_) fun t => ?_)
  -- without memory for the values the node is given up, and the array is as it was
  · exact runs_pure ⟨f, rfl, .finished st f rfl fun h => absurd h hsure⟩
  rw [if_neg (start_ne_none _), hsolution]
  refine runs_bind (runs_fillBuffer rfl List.length_replicate
    (fun i => R.solution i + offsets i) ?_ ?_)
  · intro i hi s' hs' Q hQ
    refine runs_bind (reads_numbers (hx.trans (le_trans (Multiset.le_add_left _ _) hs')) i hi _ ?_)
    exact runs_bind (reads_numbers (ho.trans (le_trans (Multiset.le_add_left _ _) hs')) i hi _ hQ)
  refine runs_bind (runs_isAccepted hS ?_ (reads_numbers (Multiset.le_add_right _ _)) ?_)
  · exact hp.trans (le_add_left (Multiset.le_add_left _ _))
  exact runs_concludeNode hS hopen rfl

/-- A node gives back its tableau and its solver. -/
theorem runs_freeSolve {m : Option (MatrixRep ℚ)} {object impl : ℕ} {type : ℤ}
    (hs : s = matrixBlocks m + (solverBlocks object impl type + F))
    {Q : Unit → Multiset (ℕ × List (Cell ℚ)) → Prop} (hQ : Q () F) :
    Runs sure (freeSolve (matrixPointer m) (start object)) s Q := by
  rw [freeSolve]
  exact runs_freeMatrix (k := fun _ => solverFreeMethod _) hs (runs_solverFreeMethod rfl hQ)

/-! ## The children

A child is made, searched and freed. What the search of it needs is the rule for any node. -/

/-- What a search leaves: the array of the incumbent, and otherwise memory as `rest` says. If no
allocation fails, it ends as the search on paper does. Out of fuel it has no end, and nothing is
said of memory then; what is said is that the search on paper has none either. The counter of nodes
does not go down, which is what bounds the rows of the children. -/
def Explored (sure : Prop) (n b : ℕ) (st : SearchVars) (f : ℕ → ℚ)
    (paper : Incumbent → Option Incumbent) (rest : Multiset (ℕ × List (Cell ℚ)) → Prop)
    (r : Option SearchVars) (s : Multiset (ℕ × List (Cell ℚ))) : Prop :=
  match r with
  | none => sure → ∀ inc, Follows n st f inc → paper inc = none
  | some st' => ∃ f' G, s = pointsTo b (numbers n f') + G ∧ rest G ∧ st.nodes ≤ st'.nodes ∧
      (sure → ∀ inc, Follows n st f inc → ∃ inc', paper inc = some inc' ∧ Follows n st' f' inc')

/-- The search of a child does what it must, whatever the child is: any problem with the right
number of variables and not too many rows, in any memory that contains the frame `F`. Afterwards the
child is the same object, with perhaps a solution in it, and the frame is as it was. -/
def Searches (sure : Prop) (n b : ℕ) (F : Multiset (ℕ × List (Cell ℚ)))
    (search : Option Pointer → SearchVars → Effect ℚ (Option SearchVars))
    (paper : LpProblem → Incumbent → Option Incumbent) : Prop :=
  ∀ (d : ProblemRep) (U : SolvedProblem) (st : SearchVars) (f : ℕ → ℚ)
    (G : Multiset (ℕ × List (Cell ℚ))), d.Represents U → U.problem.variableCount = n →
    d.constraintCount + maxNodes < 2 ^ 30 + st.nodes → F ≤ G →
    Runs sure (search (start d.object) st) (pointsTo b (numbers n f) + (d.blocks + G))
      (Explored sure n b st f (paper U.problem) fun H =>
        ∃ d' : ProblemRep, d'.object = d.object ∧ H = d'.blocks + G)

theorem Explored.congr {paper paper' : Incumbent → Option Incumbent}
    {rest rest' : Multiset (ℕ × List (Cell ℚ)) → Prop} {r : Option SearchVars}
    (h : Explored sure n b st f paper rest r s)
    (hpaper : sure → ∀ inc, Follows n st f inc → paper' inc = paper inc)
    (hrest : ∀ H, rest H → rest' H) : Explored sure n b st f paper' rest' r s := by
  rcases r with _ | st'
  · intro hsure inc hinc
    rw [hpaper hsure inc hinc]
    exact h hsure inc hinc
  · obtain ⟨f', G, hs, hG, hnodes, hexplored⟩ := h
    refine ⟨f', G, hs, hrest G hG, hnodes, fun hsure inc hinc => ?_⟩
    rw [hpaper hsure inc hinc]
    exact hexplored hsure inc hinc

/-- A search that is not made. -/
theorem explored_skip {paper : Incumbent → Option Incumbent}
    (h : sure → ∀ inc, Follows n st f inc → paper inc = some inc) :
    Explored sure n b st f paper (fun H => H = F) (some st) (pointsTo b (numbers n f) + F) :=
  ⟨f, F, rfl, rfl, Nat.le_refl _, fun hsure inc hinc => ⟨inc, h hsure inc hinc, hinc⟩⟩

theorem set_unitRow {j : ℕ} : (List.replicate n (Cell.number (0 : ℚ))).set j (.number 1) =
    numbers n (LpProblem.unitRow j) := by
  rw [numbers_zero, numbers_set]
  refine numbers_congr fun k _ => ?_
  rw [Function.update_apply, LpProblem.unitRow]

variable {q : ProblemRep} {U : SolvedProblem} {o j : ℕ} {v : ℚ}

theorem Searches.mono {G : Multiset (ℕ × List (Cell ℚ))}
    {search : Option Pointer → SearchVars → Effect ℚ (Option SearchVars)}
    {paper : LpProblem → Incumbent → Option Incumbent} (h : Searches sure n b F search paper)
    (hFG : F ≤ G) : Searches sure n b G search paper :=
  fun d U st f H hd hn hcount hGH => h d U st f H hd hn hcount (hFG.trans hGH)

/-- **A child is searched and freed**, with the array that was made for it. The search may have put
a solution into the child; the call that frees it finds that by the pointer in the child's own
fields. -/
theorem runs_searchChild {array : ℕ} {cells : List (Cell ℚ)} {d : ProblemRep} {V : SolvedProblem}
    {search : Option Pointer → SearchVars → Effect ℚ (Option SearchVars)}
    {paper : LpProblem → Incumbent → Option Incumbent}
    (hsearch : Searches sure n b (pointsTo array cells + F) search paper) (hd : d.Represents V)
    (hn : V.problem.variableCount = n) (hcount : d.constraintCount + maxNodes < 2 ^ 30 + st.nodes)
    (hs : s = d.blocks + (pointsTo array cells + (pointsTo b (numbers n f) + F))) :
    Runs sure (searchChild search (start array) (start d.object) st) s
      (Explored sure n b st f (paper V.problem) fun H => H = F) := by
  subst hs
  rw [add_third_comm]
  refine runs_bind ((hsearch d V st f _ hd hn hcount (le_refl _)).mono ?_)
  intro r s' hr
  rcases r with _ | st'
  · exact runs_pure hr
  -- the search has stored its solution in the child, which is still at the same object
  · obtain ⟨f', H, rfl, ⟨d', hobject, rfl⟩, hnodes, hpaper⟩ := hr
    refine runs_bind (runs_freeStart (add_third_comm _ _ _ _) ?_)
    rw [← hobject]
    exact runs_bind (runs_solverProblemFree (add_left_comm _ _ _) (runs_pure
      ⟨f', F, rfl, rfl, hnodes, hpaper⟩))

/-- **The floor child** is made, searched and freed. The copy has room for one row more, and the
array with the unit vector lives until the search is over. If the branch is empty, because the bound
is below the offset, copy and array are made and freed for nothing, as in the source. -/
theorem runs_searchFloorChild (hU : q.Represents U) (hn : U.problem.variableCount = n)
    (hq : q.blocks ≤ F) (ho : pointsTo o (numbers n offsets) ≤ F) (hj : j < n)
    (hcount : q.constraintCount + 1 + maxNodes < 2 ^ 30 + st.nodes)
    (hrows : q.constraintCount + 1 < 2 ^ 30)
    {search : Option Pointer → SearchVars → Effect ℚ (Option SearchVars)}
    {paper : LpProblem → Incumbent → Option Incumbent} (hsearch : Searches sure n b F search paper)
    (hs : s = pointsTo b (numbers n f) + F) :
    Runs sure (searchFloorChild search (start q.object) (start o) j v st) s
      (Explored sure n b st f (fun inc => if 0 ≤ (⌊v⌋ : ℚ) - offsets j then
        paper (U.problem.cloneProblem.addConstraint (LpProblem.unitRow j) ((⌊v⌋ : ℚ) - offsets j))
          inc else some inc) fun H => H = F) := by
  subst hs
  refine runs_bind (runs_cloneProblem (hq.trans (Multiset.le_add_left _ _)) hU (by omega)
    (fun hsure => runs_pure (explored_skip fun h => absurd h hsure)) fun d hd => ?_)
  dsimp only
  have hdcount : d.constraintCount = q.constraintCount :=
    hd.constraintCount.symm.trans hU.constraintCount
  have hdsize : d.objective.size = n := hd.variableCount.symm.trans hn
  have hwidth : d.constraints.fields.cols.toNat = n := by
    rw [← hdsize, ← d.cols_eq]
    exact Int.toNat_natCast _
  refine runs_bind (ProblemRep.runs_impl (Multiset.le_add_right _ _) ?_)
  dsimp only
  refine runs_bind (MatrixRep.runs_matrixImpl
    (ProblemRep.constraints_le.trans (Multiset.le_add_right _ _)) ?_)
  dsimp only
  rw [hwidth]
  -- the row of the new constraint; without memory for it the child is freed and not searched
  refine runs_bind (runs_calloc (fun hsure => ?_) fun row => ?_)
  · rw [if_pos rfl]
    exact runs_bind (runs_solverProblemFree rfl (runs_pure
      (explored_skip fun h => absurd h hsure)))
  rw [if_neg (start_ne_none _)]
  refine runs_bind (runs_setField rfl (by rwa [List.length_replicate]) ?_)
  rw [set_unitRow]
  refine runs_bind (reads_numbers (ho.trans ?_) j hj _ ?_)
  · exact le_add_left (le_add_left (Multiset.le_add_left _ _))
  have hwider : Searches sure n b (pointsTo row (numbers n (LpProblem.unitRow j)) + F) search
      paper := hsearch.mono (Multiset.le_add_left _ _)
  -- the row is freed after the search of the child, which must therefore leave it alone
  by_cases hub : (⌊v⌋ : ℚ) - offsets j ≥ 0
  · rw [if_pos hub]
    refine runs_bind (runs_solverAddConstraint (add_left_comm _ _ _) hd (by omega)
      (Multiset.le_add_right _ _) (Nat.le_of_eq hdsize) (fun _ hsure d' hobject hd' => ?_)
      fun d' hobject hd' _ => ?_)
    -- the code of the call is not looked at: a child whose row could not be added is searched too
    · have hdcount' : d'.constraintCount = q.constraintCount :=
        hd'.constraintCount.symm.trans hU.constraintCount
      rw [← hobject]
      refine (runs_searchChild hwider hd' hn (by omega) rfl).mono fun r s' hr => ?_
      exact hr.congr (fun h => absurd h hsure) fun _ hH => hH
    · have hdcount' : U.problem.constraintCount + 1 = d'.constraintCount := hd'.constraintCount
      have hucount := hU.constraintCount
      rw [← hobject]
      refine (runs_searchChild hwider hd' hn (by omega) rfl).mono fun r s' hr => ?_
      exact hr.congr (fun _ inc _ => if_pos hub) fun _ hH => hH
  · rw [if_neg hub]
    refine runs_bind (runs_freeStart rfl ?_)
    refine runs_bind (runs_solverProblemFree rfl (runs_pure (explored_skip fun _ inc _ => ?_)))
    exact if_neg hub

/-- **The ceil child** is made, searched and freed. Its bounds and its offset are those of the
shift, and nothing is allocated when the shift is negative. The rule for the search is asked for any
array of offsets, since the child's is a new one. -/
theorem runs_searchCeilChild (hU : q.Represents U) (hn : U.problem.variableCount = n)
    (hq : q.blocks ≤ F) (ho : pointsTo o (numbers n offsets) ≤ F) (hj : j < n)
    (hcount : q.constraintCount + maxNodes < 2 ^ 30 + st.nodes)
    (hrows : q.constraintCount < 2 ^ 30)
    {search : Option Pointer → Option Pointer → ℚ → SearchVars → Effect ℚ (Option SearchVars)}
    {paper : LpProblem → (ℕ → ℚ) → ℚ → Incumbent → Option Incumbent}
    (hsearch : ∀ (o' : ℕ) (offsets' : ℕ → ℚ) (objOffset' : ℚ) (G : Multiset (ℕ × List (Cell ℚ))),
      F ≤ G → pointsTo o' (numbers n offsets') ≤ G →
      Searches sure n b G (fun child st => search child (start o') objOffset' st)
        fun P inc => paper P offsets' objOffset' inc)
    (hs : s = pointsTo b (numbers n f) + F) :
    Runs sure (searchCeilChild n search (start q.object) (start o) objOffset j v st) s
      (Explored sure n b st f (fun inc =>
        if 0 ≤ (⌈v⌉ : ℚ) - offsets j then
          paper (U.problem.cloneWithLowerBound j ((⌈v⌉ : ℚ) - offsets j)).1
            (Function.update offsets j ⌈v⌉)
            (objOffset + (U.problem.cloneWithLowerBound j ((⌈v⌉ : ℚ) - offsets j)).2) inc
        else some inc) fun H => H = F) := by
  subst hs
  refine runs_bind (reads_numbers (ho.trans (Multiset.le_add_left _ _)) j hj _ ?_)
  -- only a shift that is not negative gives a child; nothing has been taken before this test
  by_cases hlb : (⌈v⌉ : ℚ) - offsets j ≥ 0
  · rw [if_pos hlb]
    refine runs_bind (runs_cloneWithLowerBound (hq.trans (Multiset.le_add_left _ _)) hU hrows
      (hn.symm ▸ hj) (fun hsure => runs_pure (explored_skip fun h => absurd h hsure))
      fun d hd => ?_)
    dsimp only
    have hdcount : d.constraintCount = q.constraintCount :=
      hd.constraintCount.symm.trans hU.constraintCount
    -- the offsets of the child, which live as long as its search
    refine runs_bind (runs_calloc (fun hsure => ?_) fun o' => ?_)
    · rw [if_pos rfl]
      exact runs_bind (runs_solverProblemFree rfl (runs_pure
        (explored_skip fun h => absurd h hsure)))
    rw [if_neg (start_ne_none _)]
    refine runs_bind (runs_copyBuffer rfl List.length_replicate (ho.trans ?_) ?_)
    · exact le_add_left (Multiset.le_add_left _ _)
    refine runs_bind (runs_setField rfl (by rwa [length_numbers]) ?_)
    rw [numbers_set, add_left_comm]
    refine (runs_searchChild (hsearch o' (Function.update offsets j ⌈v⌉) _ _
      (Multiset.le_add_left _ _) (Multiset.le_add_right _ _)) hd hn (by omega) rfl).mono
      fun r s' hr => ?_
    exact hr.congr (fun _ inc _ => if_pos hlb) fun _ hH => hH
  · rw [if_neg hlb]
    exact runs_pure (explored_skip fun _ inc _ => if_neg hlb)

/-! ## The search -/

/-- The search on paper after the judgement of a node: nothing more, or first the floor child and
then, from the incumbent that it leaves, the ceil child. -/
def afterJudgement (orig problem : LpProblem) (fuel : ℕ) (offsets trueSol : ℕ → ℚ)
    (objOffset : ℚ) (inc : Incumbent) : Incumbent ⊕ ℕ → Option Incumbent
  | .inl inc' => some inc'
  | .inr j =>
    (if 0 ≤ (⌊trueSol j⌋ : ℚ) - offsets j then
      Solver.bbSolve orig fuel (problem.cloneProblem.addConstraint (LpProblem.unitRow j)
        ((⌊trueSol j⌋ : ℚ) - offsets j)) offsets objOffset inc
    else some inc).bind fun inc' =>
      if 0 ≤ (⌈trueSol j⌉ : ℚ) - offsets j then
        Solver.bbSolve orig fuel
          (problem.cloneWithLowerBound j ((⌈trueSol j⌉ : ℚ) - offsets j)).1
          (Function.update offsets j ⌈trueSol j⌉)
          (objOffset + (problem.cloneWithLowerBound j ((⌈trueSol j⌉ : ℚ) - offsets j)).2) inc'
      else some inc'

/-- The incumbent when a node is counted. -/
def counted (inc : Incumbent) : Incumbent := { inc with nodes := inc.nodes + 1 }

section

variable {problem : LpProblem} {fuel : ℕ}

theorem bbSolve_limit (h : maxNodes ≤ inc.nodes) :
    Solver.bbSolve orig (fuel + 1) problem offsets objOffset inc = some inc := by
  rw [Solver.bbSolve, searchSolve, if_pos h]

theorem bbSolve_none (h : ¬ maxNodes ≤ inc.nodes) (hr : Solver.simplexSolver fuel problem = none) :
    Solver.bbSolve orig (fuel + 1) problem offsets objOffset inc = none := by
  rw [Solver.bbSolve, searchSolve, if_neg h, bbRelax, hr]

theorem bbSolve_stopped (h : ¬ maxNodes ≤ inc.nodes) {result : SimplexResult}
    (hr : Solver.simplexSolver fuel problem = some result) (hstop : result.status ≠ .optimal) :
    Solver.bbSolve orig (fuel + 1) problem offsets objOffset inc = some (counted inc) := by
  rw [Solver.bbSolve, searchSolve, if_neg h, bbRelax, hr]
  cases result with
  | optimal => exact absurd rfl hstop
  | unbounded => rfl
  | infeasible => rfl

/-- The search on paper in the three steps of the code: count, judge, and follow the judgement. -/
theorem bbSolve_judged (h : ¬ maxNodes ≤ inc.nodes)
    (hr : bbRelax fuel problem offsets = some (some R)) :
    Solver.bbSolve orig (fuel + 1) problem offsets objOffset inc =
      afterJudgement orig problem fuel offsets (fun i => R.solution i + offsets i) objOffset
        (counted inc) (judge orig R offsets objOffset (counted inc)) := by
  have hinc : ({ inc with nodes := inc.nodes + 1 } : Incumbent) = counted inc := rfl
  rw [Solver.bbSolve, searchSolve, if_neg h, hr, hinc, judge]
  dsimp only
  by_cases hpruned : isPruned orig.type (R.objectiveValue + objOffset) (counted inc).bestObj = true
  · rw [if_pos hpruned, if_pos hpruned]
    rfl
  rw [if_neg hpruned, if_neg hpruned]
  by_cases haccepted : (Solver.solutionIsInteger (fun i => R.solution i + offsets i)
      orig.variableCount && checkFeasibility orig fun i => R.solution i + offsets i) = true
  · rw [if_pos haccepted, if_pos haccepted]
    by_cases himproves : improves orig.type (R.objectiveValue + objOffset)
        (counted inc).bestObj = true
    · rw [if_pos himproves, if_pos himproves]
      rfl
    · rw [if_neg himproves, if_neg himproves]
      rfl
  rw [if_neg haccepted, if_neg haccepted]
  cases Solver.findBranchingVariable (fun i => R.solution i + offsets i) orig.variableCount with
  | none => rfl
  | some j =>
    dsimp only [afterJudgement]
    rw [Solver.bbSolve]
    generalize (if 0 ≤ (⌊R.solution j + offsets j⌋ : ℚ) - offsets j then _ else _ :
      Option Incumbent) = afterFloor
    cases afterFloor <;> rfl

theorem Follows.counted (h : Follows n st f inc) :
    Follows n { st with nodes := st.nodes + 1 } f (counted inc) :=
  ⟨h.bestObj, congrArg (· + 1) h.nodes, h.bestSol⟩

/-- A search from a node that has been counted. -/
theorem explored_counted {paper paper' : Incumbent → Option Incumbent}
    {rest : Multiset (ℕ × List (Cell ℚ)) → Prop} {r : Option SearchVars}
    (h : Explored sure n b { st with nodes := st.nodes + 1 } f paper rest r s)
    (hpaper : sure → ∀ inc, Follows n st f inc → paper' inc = paper (counted inc)) :
    Explored sure n b st f paper' rest r s := by
  rcases r with _ | st'
  · intro hsure inc hinc
    rw [hpaper hsure inc hinc]
    exact h hsure _ hinc.counted
  · obtain ⟨f', G, hs, hG, hnodes, hexplored⟩ := h
    refine ⟨f', G, hs, hG, (Nat.le_succ _).trans hnodes, fun hsure inc hinc => ?_⟩
    rw [hpaper hsure inc hinc]
    exact hexplored hsure _ hinc.counted

/-- A node that is done with, in memory as on paper. -/
theorem explored_done {paper : Incumbent → Option Incumbent} {q : ProblemRep}
    (h : sure → ∀ inc, Follows n st f inc → paper inc = some (counted inc)) :
    Explored sure n b st f paper (fun H => ∃ q' : ProblemRep, q'.object = q.object ∧
      H = q'.blocks + F) (some { st with nodes := st.nodes + 1 })
      (pointsTo b (numbers n f) + (q.blocks + F)) := by
  have hcounted : Explored sure n b { st with nodes := st.nodes + 1 } f some (fun H =>
      ∃ q' : ProblemRep, q'.object = q.object ∧ H = q'.blocks + F)
      (some { st with nodes := st.nodes + 1 }) (pointsTo b (numbers n f) + (q.blocks + F)) :=
    ⟨f, _, rfl, ⟨q, rfl, rfl⟩, Nat.le_refl _, fun _ inc hinc => ⟨inc, rfl, hinc⟩⟩
  exact explored_counted hcounted h

/-- **The children of a node**, one after the other. The second starts from what the first has left
in the array and the variables; if no allocation has failed, that is the incumbent on paper after
the first. -/
theorem runs_searchChildren (hU : q.Represents U) (hn : U.problem.variableCount = n)
    (hq : q.blocks ≤ F) (ho : pointsTo o (numbers n offsets) ≤ F) (hj : j < n)
    (hcount : q.constraintCount + 1 + maxNodes < 2 ^ 30 + st.nodes)
    (hrows : q.constraintCount + 1 < 2 ^ 30) {trueSol : ℕ → ℚ}
    {search : Option Pointer → Option Pointer → ℚ → SearchVars → Effect ℚ (Option SearchVars)}
    (hsearch : ∀ (o' : ℕ) (offsets' : ℕ → ℚ) (objOffset' : ℚ) (G : Multiset (ℕ × List (Cell ℚ))),
      F ≤ G → pointsTo o' (numbers n offsets') ≤ G →
      Searches sure n b G (fun child st => search child (start o') objOffset' st)
        fun P inc => Solver.bbSolve orig fuel P offsets' objOffset' inc)
    (hs : s = pointsTo b (numbers n f) + F) :
    Runs sure (searchChildren n search (start q.object) (start o) objOffset j (trueSol j) st) s
      (Explored sure n b st f (fun inc => afterJudgement orig U.problem fuel offsets trueSol
        objOffset inc (.inr j)) fun H => H = F) := by
  refine runs_bind ((runs_searchFloorChild hU hn hq ho hj hcount hrows
    (hsearch o offsets objOffset F (le_refl _) ho) hs).mono ?_)
  intro r s' hr
  rcases r with _ | st'
  -- the floor child did not end: then the search on paper does not either
  · refine runs_pure fun hsure inc hinc => ?_
    have hnone := hr hsure inc hinc
    dsimp only [afterJudgement] at hnone ⊢
    rw [hnone, Option.bind_none]
  obtain ⟨f', G, rfl, rfl, hnodes, hfloor⟩ := hr
  refine (runs_searchCeilChild hU hn hq ho hj (by omega) (by omega) hsearch rfl).mono ?_
  intro r s' hr
  rcases r with _ | st''
  · intro hsure inc hinc
    obtain ⟨inc', hinc', hfollows⟩ := hfloor hsure inc hinc
    dsimp only [afterJudgement] at hinc' ⊢
    rw [hinc', Option.bind_some]
    exact hr hsure inc' hfollows
  -- both ended: the incumbent that the floor child leaves is the one the ceil child starts from
  · obtain ⟨f'', G', rfl, rfl, hnodes', hceil⟩ := hr
    refine ⟨f'', G', rfl, rfl, hnodes.trans hnodes', fun hsure inc hinc => ?_⟩
    obtain ⟨inc', hinc', hfollows⟩ := hfloor hsure inc hinc
    dsimp only [afterJudgement] at hinc' ⊢
    rw [hinc', Option.bind_some]
    exact hceil hsure inc' hfollows

/-- **What a judgement leads to**: nothing, or the children of the node. It is stated for any
judgement on paper that agrees with the outcome, so that it does not depend on how the judgement
came about. -/
theorem runs_followJudgement (orig : LpProblem) (fuel : ℕ) (hU : q.Represents U)
    (hn : U.problem.variableCount = n) (hq : q.blocks ≤ F)
    (ho : pointsTo o (numbers n offsets) ≤ F)
    (hcount : q.constraintCount + 1 + maxNodes < 2 ^ 30 + st.nodes)
    (hrows : q.constraintCount + 1 < 2 ^ 30) {trueSol : ℕ → ℚ}
    {search : Option Pointer → Option Pointer → ℚ → SearchVars → Effect ℚ (Option SearchVars)}
    (hsearch : ∀ (o' : ℕ) (offsets' : ℕ → ℚ) (objOffset' : ℚ) (G : Multiset (ℕ × List (Cell ℚ))),
      F ≤ G → pointsTo o' (numbers n offsets') ≤ G →
      Searches sure n b G (fun child st => search child (start o') objOffset' st)
        fun P inc => Solver.bbSolve orig fuel P offsets' objOffset' inc)
    {judgement : Incumbent → Incumbent ⊕ ℕ} {outcome : Judgement} {f' : ℕ → ℚ}
    (houtcome : Judged sure n st f trueSol judgement outcome f')
    (hs : s = pointsTo b (numbers n f') + F) :
    Runs sure (followJudgement n search (start q.object) (start o) objOffset st outcome) s
      (Explored sure n b st f (fun inc => afterJudgement orig U.problem fuel offsets trueSol
        objOffset inc (judgement inc)) fun H => H = F) := by
  cases houtcome with
  | finished st' f' hnodes hpaper =>
    refine runs_pure ⟨f', F, hs, rfl, hnodes.ge, fun hsure inc hinc => ?_⟩
    obtain ⟨inc', hinc', hfollows⟩ := hpaper hsure inc hinc
    exact ⟨inc', congrArg _ hinc', hfollows⟩
  | branch j hj hpaper =>
    refine (runs_searchChildren hU hn hq ho hj hcount hrows hsearch hs).mono fun r s' hr => ?_
    exact hr.congr (fun _ inc hinc => congrArg _ (hpaper inc hinc)) fun _ h => h

/-- **The search below a node**, by induction on the fuel. A child has at most one row more than its
parent and its search counts one node more, so there are never too many rows. -/
theorem runs_bbSolve (hS : p.Represents S) (hU : q.Represents U)
    (hn : U.problem.variableCount = p.objective.size) (hp : p.blocks ≤ F)
    (ho : pointsTo o (numbers p.objective.size offsets) ≤ F)
    (hcount : q.constraintCount + maxNodes < 2 ^ 30 + st.nodes)
    (hs : s = pointsTo b (numbers p.objective.size f) + (q.blocks + F)) :
    Runs sure (bbSolve (contextOf b p S) fuel (start q.object) (start o) objOffset st) s
      (Explored sure p.objective.size b st f
        (fun inc => Solver.bbSolve S.problem fuel U.problem offsets objOffset inc)
        fun H => ∃ q' : ProblemRep, q'.object = q.object ∧ H = q'.blocks + F) := by
  induction fuel generalizing q U o offsets objOffset st f F s with
  | zero => exact runs_pure fun _ _ _ => rfl
  | succ fuel ih =>
    subst hs
    rw [bbSolve]
    by_cases hlimit : st.nodes ≥ maxNodes
    · rw [if_pos hlimit]
      refine runs_pure ⟨f, _, rfl, ⟨q, rfl, rfl⟩, Nat.le_refl _, fun _ inc hinc =>
        ⟨inc, bbSolve_limit ?_, hinc⟩⟩
      rw [← hinc.nodes]
      exact hlimit
    rw [if_neg hlimit]
    -- the counter is that of the paper, so both are below the limit
    have hopen : ∀ inc, Follows p.objective.size st f inc → ¬ maxNodes ≤ inc.nodes := by
      intro inc hinc
      rw [← hinc.nodes]
      exact hlimit
    -- the node has been counted; without a solver it is done with
    refine runs_bind (runs_createSolver (by decide) (fun hsure => ?_) fun object impl => ?_)
    · rw [if_pos rfl]
      exact runs_pure (explored_done fun h => absurd h hsure)
    rw [if_neg (start_ne_none _)]
    -- the problem and the matrix are exchanged in the sum of what is held
    have hafter : ∀ (d : ProblemRep) (m : Option (MatrixRep ℚ)), d.blocks + (matrixBlocks m +
        (solverBlocks object impl solverSimplex + (pointsTo b (numbers p.objective.size f) + F))) =
          matrixBlocks m + (solverBlocks object impl solverSimplex +
            (pointsTo b (numbers p.objective.size f) + (d.blocks + F))) := by
      intro d m
      rw [add_left_comm, add_left_comm d.blocks, add_left_comm d.blocks]
    have hready : solverBlocks object impl solverSimplex +
        (pointsTo b (numbers p.objective.size f) + (q.blocks + F)) = q.blocks +
          (solverBlocks object impl solverSimplex +
            (pointsTo b (numbers p.objective.size f) + F)) := by
      rw [add_left_comm _ q.blocks, add_left_comm]
    refine runs_bind (runs_solverDispatch (by decide) (Multiset.le_add_right _ _)
      ((runs_simplexSolver hU hready).mono ?_))
    -- a node with no relaxation is done with
    have hstopped : ∀ (m : Option (MatrixRep ℚ)),
        (sure → ∀ inc, Follows p.objective.size st f inc →
          Solver.bbSolve S.problem (fuel + 1) U.problem offsets objOffset inc =
            some (counted inc)) →
        Runs sure (do
          freeSolve (matrixPointer m) (start object)
          return some { st with nodes := st.nodes + 1 })
          (q.blocks + (matrixBlocks m + (solverBlocks object impl solverSimplex +
            (pointsTo b (numbers p.objective.size f) + F))))
          (Explored sure p.objective.size b st f
            (fun inc => Solver.bbSolve S.problem (fuel + 1) U.problem offsets objOffset inc)
            fun H => ∃ q' : ProblemRep, q'.object = q.object ∧ H = q'.blocks + F) := by
      intro m hpaper
      exact runs_bind (runs_freeSolve (hafter q m) (runs_pure (explored_done hpaper)))
    -- the ends of the simplex call: none, out of memory, two without a solution, and optimal
    intro r s' hr
    rcases hr with ⟨_, hresult⟩ | hsure | hresult | ⟨T, m, hresult, -⟩ |
      ⟨x, value, T, q', m, hresult, hobject, hq', -⟩
    · exact runs_pure fun _ inc hinc => bbSolve_none (hopen inc hinc) hresult
    · have hnode := hstopped none fun h => absurd h hsure
      rw [matrixBlocks, Option.elim_none, zero_add] at hnode
      dsimp only
      rw [if_pos (by decide)]
      exact runs_bind (runs_pure hnode)
    · have hnode := hstopped none fun _ inc hinc =>
        bbSolve_stopped (hopen inc hinc) hresult (by decide)
      rw [matrixBlocks, Option.elim_none, zero_add] at hnode
      dsimp only
      rw [if_pos (by decide)]
      exact runs_bind (runs_pure hnode)
    · dsimp only
      rw [if_pos (by decide)]
      exact runs_bind (runs_pure (hstopped (some m) fun _ inc hinc =>
        bbSolve_stopped (hopen inc hinc) hresult fun h => Status.noConfusion h))
    -- optimal: the node is judged, the tableau and the solver go, and then come the children
    · have hsize : q'.objective.size = p.objective.size := hq'.variableCount.symm.trans hn
      have hrelax : bbRelax fuel U.problem offsets = some (some ⟨U.problem, x, value, T⟩) := by
        rw [bbRelax, hresult]
      obtain ⟨bs, hpointer, hblock⟩ := hq'.solution_block
      rw [hsize] at hblock
      have hjudged : ∀ inc, Follows p.objective.size st f inc →
          Solver.bbSolve S.problem (fuel + 1) U.problem offsets objOffset inc =
            afterJudgement S.problem U.problem fuel offsets (fun i => x i + offsets i) objOffset
              (counted inc)
              (judge S.problem ⟨U.problem, x, value, T⟩ offsets objOffset (counted inc)) :=
        fun inc hinc => bbSolve_judged (hopen inc hinc) hrelax
      have hframe : ∀ {H : Multiset (ℕ × List (Cell ℚ))}, H ≤ q'.blocks + F →
          H ≤ matrixBlocks (some m) + (solverBlocks object impl solverSimplex +
            (q'.blocks + F)) :=
        fun h => h.trans (le_add_left (Multiset.le_add_left _ _))
      have hinside : ∀ A : Multiset (ℕ × List (Cell ℚ)), A + (matrixBlocks (some m) +
          (solverBlocks object impl solverSimplex + (q'.blocks + F))) =
            matrixBlocks (some m) + (solverBlocks object impl solverSimplex +
              (A + (q'.blocks + F))) := by
        intro A
        rw [add_left_comm, add_left_comm A]
      have hcount' : q'.constraintCount = q.constraintCount :=
        hq'.constraintCount.symm.trans hU.constraintCount
      dsimp only
      rw [if_neg (by decide), ← hobject]
      refine runs_bind (ProblemRep.runs_impl (Multiset.le_add_right _ _) ?_)
      dsimp only
      rw [hpointer, if_neg (start_ne_none _)]
      have hoffsets := hframe (ho.trans (Multiset.le_add_left _ _))
      refine runs_bind ((runs_judgeNode (f := f)
        (R := ⟨U.problem, x, value, T⟩) hS hpointer hq'.objectiveValue.symm ?_
        (hframe (hp.trans (Multiset.le_add_left _ _)))
        (hframe (hblock.trans (Multiset.le_add_right _ _)))
        hoffsets).mono ?_)
      -- the array of the incumbent is taken out of what is held, everything else is the frame
      · exact (hafter q' (some m)).trans (hinside _).symm
      · rintro outcome _ ⟨f', rfl, houtcome⟩
        refine runs_bind (runs_freeSolve (m := some m) (hinside _) ?_)
        -- the induction hypothesis, for any child in any larger memory
        have hchild : ∀ (o' : ℕ) (offsets' : ℕ → ℚ) (objOffset' : ℚ)
            (G : Multiset (ℕ × List (Cell ℚ))), q'.blocks + F ≤ G →
            pointsTo o' (numbers p.objective.size offsets') ≤ G →
            Searches sure p.objective.size b G
              (fun child st => bbSolve (contextOf b p S) fuel child (start o') objOffset' st)
              fun P inc => Solver.bbSolve S.problem fuel P offsets' objOffset' inc := by
          intro o' offsets' objOffset' G hG ho' d V st' f'' H hd hV hd' hH
          exact ih hd hV ((hp.trans (Multiset.le_add_left _ _)).trans (hG.trans hH))
            (ho'.trans hH) hd' rfl
        refine (runs_followJudgement S.problem fuel hq' hn (Multiset.le_add_right _ _)
          (ho.trans (Multiset.le_add_left _ _)) (by dsimp only; omega) (by omega) hchild houtcome
          rfl).mono fun r s' hr => ?_
        exact explored_counted (hr.congr (fun _ _ _ => rfl) fun H hH => ⟨q', rfl, hH⟩)
          fun _ inc hinc => hjudged inc hinc

end

end

end ProblemStorage

end Solver

end OvaLib
