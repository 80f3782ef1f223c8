import Mathlib.Data.List.Nodup
import Mathlib.Logic.Function.Basic
import Mathlib.Logic.Relation
import Mathlib.Tactic.Common

/-!
# Calls behind one lock

Threads share a state and call operations on it. An operation takes the lock, works on the state in
atomic steps, and gives the lock back; between any two steps another thread may run. If an
operation, run alone, ends with what its specification says, then every interleaving is explained by
one sequential order of the calls: each call returns what it returns in that order, and a call that
returned before another one was made comes before it.

## The machine

A thread is idle, waits for the lock, works between the lock and the unlock, gives the lock back, or
is about to return. A step is a call that is made, or one step of a thread in a call; any thread may
be the next, at any time, and there may be any number of them. The log has what an observer sees,
the calls and the returns with a number for each call.

## The order

A call takes effect with the last step of its work. The invariant has the calls that have taken
effect in that order, and says that the state between two sections is the one their specifications
lead to. In the middle of a section the state is anything its steps have made of it; what is known
then is that the section, run on alone, ends as the specification says, and as no other thread
touches the state, it will. The order agrees with the log because a call takes effect between its
two events.

That a thread never returns is not excluded, but some thread in a call can always go on.

## Main results

* `Machine.Inv.advance` — one step of one thread
* `Machine.Reached.inv` — any interleaving
* `Linearizes.exists_between` — what can come between two calls in that order
* `Machine.Inv.exclusive`, `Machine.Inv.exists_advance` — one thread at a time, and no deadlock
-/

namespace Foundation

variable {S L C R T : Type*}

/-- What an operation does between the lock and the unlock: where it starts, and one atomic step,
which goes on or returns. A step may read and write all of the shared state. -/
structure CriticalSection (S L C R : Type*) where
  start : C → L
  step : S → L → S × (L ⊕ R)

/-- Run alone, the section ends with the given state and response. As the steps are deterministic
there is at most one such end. -/
inductive Completes (P : CriticalSection S L C R) : S → L → S × R → Prop
  | last {s s' : S} {l : L} {r : R} (h : P.step s l = (s', .inr r)) : Completes P s l (s', r)
  | more {s s₁ : S} {l l₁ : L} {out : S × R} (h : P.step s l = (s₁, .inl l₁))
      (rest : Completes P s₁ l₁ out) : Completes P s l out

theorem Completes.of_more {P : CriticalSection S L C R} {s s₁ : S} {l l₁ : L} {out : S × R}
    (h : Completes P s l out) (hstep : P.step s l = (s₁, .inl l₁)) : Completes P s₁ l₁ out := by
  cases h with
  | last hlast =>
    rw [hlast] at hstep
    cases hstep
  | more hmore hrest =>
    rw [hmore] at hstep
    cases hstep
    exact hrest

theorem Completes.of_last {P : CriticalSection S L C R} {s s₁ : S} {l : L} {r : R} {out : S × R}
    (h : Completes P s l out) (hstep : P.step s l = (s₁, .inr r)) : out = (s₁, r) := by
  cases h with
  | last hlast =>
    rw [hlast] at hstep
    cases hstep
    rfl
  | more hmore hrest =>
    rw [hmore] at hstep
    cases hstep

/-- Where a thread is. The last step of the work and the unlock are separate, as are the unlock and
the return, so that other threads may come in between. -/
inductive ThreadState (L C R : Type*)
  | idle
  | waiting (id : ℕ) (c : C)
  | inside (id : ℕ) (c : C) (l : L)
  | leaving (id : ℕ) (r : R)
  | returning (id : ℕ) (r : R)

/-- What an observer sees: a call is made, a call returns. -/
inductive Event (C R T : Type*)
  | call (id : ℕ) (t : T) (c : C)
  | ret (id : ℕ) (t : T) (r : R)

/-- The shared state, the lock, the threads, the number of calls made, and what was observed. The
log is written and never read by the threads. -/
structure Machine (S L C R T : Type*) where
  shared : S
  lock : Option T
  thread : T → ThreadState L C R
  calls : ℕ
  /-- What was observed, in order. -/
  log : List (Event C R T)

/-- A call in the sequential order. -/
structure Entry (C R T : Type*) where
  id : ℕ
  thread : T
  call : C
  response : R

/-- The calls, one after the other, lead from one state to the other and return what they say. -/
def Legal (spec : S → C → S × R) : S → List (Entry C R T) → S → Prop
  | s, [], s' => s' = s
  | s, e :: es, s' => (spec s e.call).2 = e.response ∧ Legal spec (spec s e.call).1 es s'

theorem Legal.concat {spec : S → C → S × R} {s s' s'' : S} {hist : List (Entry C R T)}
    {e : Entry C R T} (h : Legal spec s hist s') (he : spec s' e.call = (s'', e.response)) :
    Legal spec s (hist ++ [e]) s'' := by
  induction hist generalizing s with
  | nil =>
    obtain rfl : s' = s := h
    exact ⟨congrArg Prod.snd he, (congrArg Prod.fst he).symm⟩
  | cons e₀ hist ih => exact ⟨h.1, ih h.2⟩

theorem legal_append {spec : S → C → S × R} {s s' : S} {hist hist' : List (Entry C R T)} :
    Legal spec s (hist ++ hist') s' ↔ ∃ s₁, Legal spec s hist s₁ ∧ Legal spec s₁ hist' s' := by
  induction hist generalizing s with
  | nil =>
    constructor
    · intro h
      exact ⟨s, rfl, h⟩
    · rintro ⟨s₁, rfl, h⟩
      exact h
  | cons e hist ih =>
    rw [List.cons_append, Legal, ih]
    constructor
    · rintro ⟨he, s₁, h, h'⟩
      exact ⟨s₁, ⟨he, h⟩, h'⟩
    · rintro ⟨s₁, ⟨he, h⟩, h'⟩
      exact ⟨he, s₁, h, h'⟩

/-- **The sequential order explains what was observed.** Every call that has returned is in it, with
its response, and a call that returned before another one was made is in front of it. A call that
has not returned may be in it or not. -/
structure Linearizes (log : List (Event C R T)) (hist : List (Entry C R T)) : Prop where
  nodup : (hist.map Entry.id).Nodup
  called : ∀ e ∈ hist, Event.call e.id e.thread e.call ∈ log
  returned : ∀ id t r, Event.ret id t r ∈ log → ∃ c, ⟨id, t, c, r⟩ ∈ hist
  /-- A call that returned before another one was made comes before it. -/
  ordered : ∀ i t r j t' c, [Event.ret i t r, Event.call j t' c].Sublist log →
    j ∈ hist.map Entry.id → [i, j].Sublist (hist.map Entry.id)

/-- Two elements of a list without repetition have one order. -/
theorem not_pair_swap {α : Type*} {l : List α} (hl : l.Nodup) {a b : α} (h : [a, b].Sublist l) :
    ¬ [b, a].Sublist l := by
  induction l with
  | nil => cases h
  | cons x l ih =>
    obtain ⟨hx, hl⟩ := List.nodup_cons.mp hl
    intro h'
    cases h with
    | cons _ h =>
      cases h' with
      | cons _ h' => exact ih hl h h'
      | cons_cons _ h' => exact hx (h.subset (List.mem_cons_of_mem _ List.mem_cons_self))
    | cons_cons _ h =>
      cases h' with
      | cons _ h' => exact hx (h'.subset (List.mem_cons_of_mem _ List.mem_cons_self))
      | cons_cons _ h' => exact hx (h.subset List.mem_cons_self)

/-- **What lies between two calls** of the order, one of which returned before the other was made:
calls that neither returned before the first was made nor were made after the second returned. -/
theorem Linearizes.exists_between {log : List (Event C R T)} {hist : List (Entry C R T)}
    (h : Linearizes log hist) {e e' : Entry C R T} (he : e ∈ hist) (he' : e' ∈ hist)
    (hlog : [Event.ret e.id e.thread e.response, Event.call e'.id e'.thread e'.call].Sublist log) :
    ∃ front between rest, hist = front ++ e :: (between ++ e' :: rest) ∧ ∀ x ∈ between,
      x.id ≠ e.id ∧
      (∀ r, ¬ [Event.ret x.id x.thread r, Event.call e.id e.thread e.call].Sublist log) ∧
      ∀ r, ¬ [Event.ret e'.id e'.thread r, Event.call x.id x.thread x.call].Sublist log := by
  have hids : ∀ {x}, x ∈ hist → x.id ∈ hist.map Entry.id := fun hx => List.mem_map_of_mem hx
  have hpair := h.ordered _ _ _ _ _ _ hlog (hids he')
  have hnot := not_pair_swap h.nodup hpair
  obtain ⟨front, back, hfront⟩ := List.append_of_mem he
  have hback : e' ∈ back := by
    rw [hfront] at he'
    rcases List.mem_append.mp he' with hin | hin
    · refine absurd ?_ hnot
      rw [hfront, List.map_append, List.map_cons]
      exact (List.singleton_sublist.mpr (List.mem_map_of_mem hin)).append
        (List.singleton_sublist.mpr List.mem_cons_self)
    · rcases List.mem_cons.mp hin with rfl | hin
      · exact absurd hpair hnot
      · exact hin
  obtain ⟨between, rest, hrest⟩ := List.append_of_mem hback
  refine ⟨front, between, rest, by rw [hfront, hrest], fun x hx => ?_⟩
  -- the order has `e` before `x` and `x` before `e'`
  have hmem : x ∈ hist := by
    rw [hfront, hrest]
    simp [hx]
  have hbefore : [e.id, x.id].Sublist (hist.map Entry.id) := by
    rw [hfront, hrest, List.map_append, List.map_cons, List.map_append]
    refine List.Sublist.trans ?_ (List.sublist_append_right _ _)
    refine List.Sublist.cons_cons _ (List.Sublist.trans ?_ (List.sublist_append_left _ _))
    exact List.singleton_sublist.mpr (List.mem_map_of_mem hx)
  have hafter : [x.id, e'.id].Sublist (hist.map Entry.id) := by
    rw [hfront, hrest, List.map_append, List.map_cons, List.map_append]
    refine List.Sublist.trans ?_ (List.sublist_append_right _ _)
    refine List.Sublist.cons _ ((List.singleton_sublist.mpr (List.mem_map_of_mem hx)).append ?_)
    exact List.singleton_sublist.mpr List.mem_cons_self
  refine ⟨fun heq => ?_, fun r hr => ?_, fun r hr => ?_⟩
  · rw [heq] at hbefore
    exact not_pair_swap h.nodup hbefore hbefore
  · exact not_pair_swap h.nodup hbefore (h.ordered _ _ _ _ _ _ hr (hids he))
  · exact not_pair_swap h.nodup hafter (h.ordered _ _ _ _ _ _ hr (hids hmem))

namespace Machine

variable [DecidableEq T]

/-! ## The machine

The steps are functions where they are determined, and the choice of the thread is the relation. -/

/-- Threads that have not called anything yet. -/
def init (s : S) : Machine S L C R T := ⟨s, none, fun _ => .idle, 0, []⟩

/-- A thread makes a call. -/
def invoke (m : Machine S L C R T) (t : T) (c : C) : Machine S L C R T :=
  { m with
    thread := Function.update m.thread t (.waiting m.calls c)
    calls := m.calls + 1
    log := m.log ++ [.call m.calls t c] }

/-- The next step of a thread in a call, unless it waits for the lock. -/
def advance (P : CriticalSection S L C R) (m : Machine S L C R T) (t : T) :
    Option (Machine S L C R T) :=
  match m.thread t with
  | .idle => none
  | .waiting id c =>
    match m.lock with
    | some _ => none
    | none => some { m with
        lock := some t, thread := Function.update m.thread t (.inside id c (P.start c)) }
  | .inside id c l =>
    match P.step m.shared l with
    | (s, .inl l) => some { m with
        shared := s, thread := Function.update m.thread t (.inside id c l) }
    | (s, .inr r) => some { m with
        shared := s, thread := Function.update m.thread t (.leaving id r) }
  | .leaving id r => some { m with
      lock := none, thread := Function.update m.thread t (.returning id r) }
  | .returning id r => some { m with
      thread := Function.update m.thread t .idle, log := m.log ++ [.ret id t r] }

/-- One step of the whole: some idle thread makes some call, or some thread goes on. -/
inductive Step (P : CriticalSection S L C R) (m : Machine S L C R T) :
    Machine S L C R T → Prop
  | invoke (t : T) (c : C) (idle : m.thread t = .idle) : Step P m (m.invoke t c)
  | advance (t : T) {m' : Machine S L C R T} (h : m.advance P t = some m') : Step P m m'

/-- Reached from a state by any interleaving. -/
def Reached (P : CriticalSection S L C R) (s : S) : Machine S L C R T → Prop :=
  Relation.ReflTransGen (Step P) (init s)

/-- A given interleaving: threads that make a call, and threads that go on. It is how examples of
runs are written down. -/
def play (P : CriticalSection S L C R) :
    List (T × Option C) → Machine S L C R T → Option (Machine S L C R T)
  | [], m => some m
  | (t, none) :: moves, m => (m.advance P t).bind (play P moves)
  | (t, some c) :: moves, m =>
    match m.thread t with
    | .idle => play P moves (m.invoke t c)
    | _ => none

theorem reflTransGen_of_play {P : CriticalSection S L C R} {moves : List (T × Option C)}
    {m m' : Machine S L C R T} (h : play P moves m = some m') :
    Relation.ReflTransGen (Step P) m m' := by
  induction moves generalizing m with
  | nil =>
    obtain rfl := Option.some.inj h
    exact .refl
  | cons move moves ih =>
    obtain ⟨t, c⟩ := move
    cases c with
    | none =>
      obtain ⟨m₁, hstep, hrest⟩ := Option.bind_eq_some_iff.mp h
      exact .head (.advance t hstep) (ih hrest)
    | some c =>
      rw [play] at h
      cases ht : m.thread t with
      | idle =>
        rw [ht] at h
        exact .head (.invoke t c ht) (ih h)
      | waiting id c' =>
        rw [ht] at h
        cases h
      | inside id c' l =>
        rw [ht] at h
        cases h
      | leaving id r =>
        rw [ht] at h
        cases h
      | returning id r =>
        rw [ht] at h
        cases h

end Machine

/-! ## The invariant -/

namespace ThreadState

/-- The thread has made this call, and the call has not taken effect. -/
inductive Opens : ThreadState L C R → ℕ → C → Prop
  | waiting (id : ℕ) (c : C) : Opens (.waiting id c) id c
  | inside (id : ℕ) (c : C) (l : L) : Opens (.inside id c l) id c

/-- The call of the thread has taken effect, and has not returned. -/
inductive Closes : ThreadState L C R → ℕ → R → Prop
  | leaving (id : ℕ) (r : R) : Closes (.leaving id r) id r
  | returning (id : ℕ) (r : R) : Closes (.returning id r) id r

/-- The thread is between the lock and the unlock. -/
inductive Holds : ThreadState L C R → Prop
  | inside (id : ℕ) (c : C) (l : L) : Holds (.inside id c l)
  | leaving (id : ℕ) (r : R) : Holds (.leaving id r)

end ThreadState

namespace Machine

variable {P : CriticalSection S L C R} {spec : S → C → S × R} {s s₀ : S} {m m' : Machine S L C R T}
  {hist : List (Entry C R T)}

/-- Where the section of the lock's holder stands: the calls so far led to `s`, and what is done of
the next one can only end as its specification says. While the lock is free the shared state is `s`.
-/
inductive Stands (P : CriticalSection S L C R) (spec : S → C → S × R) (m : Machine S L C R T)
    (s : S) : Prop
  | free (lock : m.lock = none) (shared : m.shared = s)
  | inside (t : T) (id : ℕ) (c : C) (l : L) (lock : m.lock = some t)
      (thread : m.thread t = .inside id c l) (completes : Completes P m.shared l (spec s c))
  | leaving (t : T) (id : ℕ) (r : R) (lock : m.lock = some t) (thread : m.thread t = .leaving id r)
      (shared : m.shared = s)

/-- What the observations and the sequential order have to do with the threads. -/
structure Observed (m : Machine S L C R T) (hist : List (Entry C R T)) : Prop
    extends Linearizes m.log hist where
  lt_calls : ∀ id t c, Event.call id t c ∈ m.log → id < m.calls
  unique : ∀ id t c t' c', Event.call id t c ∈ m.log → Event.call id t' c' ∈ m.log →
    t = t' ∧ c = c'
  opens : ∀ t id c, (m.thread t).Opens id c →
    Event.call id t c ∈ m.log ∧ id ∉ hist.map Entry.id
  closes : ∀ t id r, (m.thread t).Closes id r → ∃ c, ⟨id, t, c, r⟩ ∈ hist

/-- **The invariant.** -/
structure Inv (P : CriticalSection S L C R) (spec : S → C → S × R) (s₀ : S)
    (m : Machine S L C R T) (hist : List (Entry C R T)) : Prop extends Observed m hist where
  legal : ∃ s, Legal spec s₀ hist s ∧ Stands P spec m s
  /-- The thread between the lock and the unlock holds the lock. -/
  holder : ∀ t, (m.thread t).Holds → m.lock = some t

theorem linearizes_nil : Linearizes ([] : List (Event C R T)) [] := by
  refine ⟨List.nodup_nil, ?_, ?_, ?_⟩
  · intro e he
    cases he
  · intro id t r h
    cases h
  · intro i t r j t' c hpair
    cases hpair

theorem inv_init : Inv P spec s₀ (init s₀ : Machine S L C R T) [] := by
  refine ⟨⟨linearizes_nil, ?_, ?_, ?_, ?_⟩, ⟨s₀, rfl, .free rfl rfl⟩, ?_⟩
  · intro id t c h
    cases h
  · intro id t c t' c' h
    cases h
  · intro t id c h
    cases h
  · intro t id r h
    cases h
  · intro t h
    cases h

theorem Observed.id_lt (h : Observed m hist) {j : ℕ} (hj : j ∈ hist.map Entry.id) :
    j < m.calls := by
  obtain ⟨e, he, rfl⟩ := List.mem_map.mp hj
  exact h.lt_calls _ _ _ (h.called e he)

/-- A pair at the end of a list is a pair of the list, or it has the last element. -/
theorem pair_sublist_concat {α : Type*} {a b x : α} {l : List α}
    (h : [a, b].Sublist (l ++ [x])) : [a, b].Sublist l ∨ (a ∈ l ∧ b = x) := by
  obtain ⟨l₁, l₂, hsplit, h₁, h₂⟩ := List.sublist_append_iff.mp h
  rcases List.sublist_singleton.mp h₂ with rfl | rfl
  · rw [List.append_nil] at hsplit
    exact .inl (hsplit ▸ h₁)
  · have hl₁ : l₁ = [a] ∧ b = x := by
      have hrev := congrArg List.reverse hsplit
      simp only [List.reverse_cons, List.reverse_nil, List.nil_append, List.reverse_append,
        List.cons_append, List.cons.injEq] at hrev
      exact ⟨(List.reverse_eq_iff.mp hrev.2.symm), hrev.1⟩
    obtain ⟨rfl, rfl⟩ := hl₁
    exact .inr ⟨h₁.subset (List.mem_singleton_self a), rfl⟩

/-- A thread inside has the lock, and its call can only end as its specification says. -/
theorem Inv.inside (h : Inv P spec s₀ m hist) {t : T} {id : ℕ} {c : C} {l : L}
    (ht : m.thread t = .inside id c l) :
    m.lock = some t ∧ ∃ s, Legal spec s₀ hist s ∧ Completes P m.shared l (spec s c) := by
  have hlock := h.holder t (ht ▸ .inside id c l)
  obtain ⟨s, hlegal, hstands⟩ := h.legal
  refine ⟨hlock, s, hlegal, ?_⟩
  cases hstands with
  | free hfree hshared =>
    rw [hlock] at hfree
    cases hfree
  | inside u id' c' l' hlock' hthread hcompletes =>
    obtain rfl := Option.some.inj (hlock'.symm.trans hlock)
    cases hthread.symm.trans ht
    exact hcompletes
  | leaving u id' r hlock' hthread hshared =>
    obtain rfl := Option.some.inj (hlock'.symm.trans hlock)
    cases hthread.symm.trans ht

/-- A thread that leaves has the lock, and its call is the last of the order. -/
theorem Inv.leaving (h : Inv P spec s₀ m hist) {t : T} {id : ℕ} {r : R}
    (ht : m.thread t = .leaving id r) : m.lock = some t ∧ Legal spec s₀ hist m.shared := by
  have hlock := h.holder t (ht ▸ .leaving id r)
  obtain ⟨s, hlegal, hstands⟩ := h.legal
  refine ⟨hlock, ?_⟩
  cases hstands with
  | free hfree hshared =>
    rw [hlock] at hfree
    cases hfree
  | inside u id' c' l' hlock' hthread hcompletes =>
    obtain rfl := Option.some.inj (hlock'.symm.trans hlock)
    cases hthread.symm.trans ht
  | leaving u id' r' hlock' hthread hshared => exact hshared ▸ hlegal

/-- At most one thread is inside. -/
theorem Inv.exclusive (h : Inv P spec s₀ m hist) {t u : T} (ht : (m.thread t).Holds)
    (hu : (m.thread u).Holds) : t = u :=
  Option.some.inj ((h.holder t ht).symm.trans (h.holder u hu))

/-! ## Calls are made -/

variable [DecidableEq T]

/-- What a thread state says of the threads after one has moved. -/
theorem update_cases (p : ThreadState L C R → Prop) {thread : T → ThreadState L C R} {t u : T}
    {st : ThreadState L C R} (h : p (Function.update thread t st u)) :
    u = t ∧ p st ∨ u ≠ t ∧ p (thread u) := by
  by_cases hu : u = t
  · rw [hu, Function.update_self] at h
    exact .inl ⟨hu, h⟩
  · rw [Function.update_of_ne hu] at h
    exact .inr ⟨hu, h⟩

/-- A step of one thread that is neither observed nor takes a call into the order. -/
theorem Observed.move (h : Observed m hist) {t : T} {st : ThreadState L C R} {shared : S}
    {lock : Option T} (hopens : ∀ id c, st.Opens id c → (m.thread t).Opens id c)
    (hcloses : ∀ id r, st.Closes id r → (m.thread t).Closes id r) :
    Observed { m with shared, lock, thread := Function.update m.thread t st } hist := by
  refine { h with opens := fun u id c hu => ?_, closes := fun u id r hu => ?_ }
  · rcases update_cases (·.Opens id c) hu with ⟨rfl, hst⟩ | ⟨-, hold⟩
    · exact h.opens u id c (hopens id c hst)
    · exact h.opens u id c hold
  · rcases update_cases (·.Closes id r) hu with ⟨rfl, hst⟩ | ⟨-, hold⟩
    · exact h.closes u id r (hcloses id r hst)
    · exact h.closes u id r hold

/-- A call is made. -/
theorem Inv.invoke (h : Inv P spec s₀ m hist) {t : T} (hidle : m.thread t = .idle) (c : C) :
    Inv P spec s₀ (m.invoke t c) hist where
  nodup := h.nodup
  called e he := List.mem_append_left _ (h.called e he)
  returned id u r hret := by
    rcases List.mem_append.mp hret with hret | hnew
    · exact h.returned id u r hret
    · exact absurd (List.mem_singleton.mp hnew) (by simp)
  ordered i u r j u' c' hpair hj := by
    rcases pair_sublist_concat hpair with hpair | ⟨-, hnew⟩
    · exact h.ordered i u r j u' c' hpair hj
    · obtain rfl : j = m.calls := (Event.call.inj hnew).1
      exact absurd (h.id_lt hj) (Nat.lt_irrefl _)
  lt_calls id u c' hcall := by
    rcases List.mem_append.mp hcall with hcall | hnew
    · exact Nat.lt_succ_of_lt (h.lt_calls id u c' hcall)
    · obtain ⟨rfl, -⟩ := Event.call.inj (List.mem_singleton.mp hnew)
      exact Nat.lt_succ_self _
  unique id u c₁ u' c₂ hcall hcall' := by
    rcases List.mem_append.mp hcall with hcall | hnew
    · rcases List.mem_append.mp hcall' with hcall' | hnew'
      · exact h.unique id u c₁ u' c₂ hcall hcall'
      · obtain ⟨rfl, -⟩ := Event.call.inj (List.mem_singleton.mp hnew')
        exact absurd (h.lt_calls _ _ _ hcall) (Nat.lt_irrefl _)
    · obtain ⟨rfl, rfl, rfl⟩ := Event.call.inj (List.mem_singleton.mp hnew)
      rcases List.mem_append.mp hcall' with hcall' | hnew'
      · exact absurd (h.lt_calls _ _ _ hcall') (Nat.lt_irrefl _)
      · obtain ⟨-, rfl, rfl⟩ := Event.call.inj (List.mem_singleton.mp hnew')
        exact ⟨rfl, rfl⟩
  opens u id c' hu := by
    rcases update_cases (·.Opens id c') hu with ⟨rfl, hst⟩ | ⟨-, hold⟩
    · cases hst
      exact ⟨List.mem_append_right _ (List.mem_singleton_self _),
        fun hmem => absurd (h.id_lt hmem) (Nat.lt_irrefl _)⟩
    · exact ⟨List.mem_append_left _ (h.opens u id c' hold).1, (h.opens u id c' hold).2⟩
  closes u id r hu := by
    rcases update_cases (·.Closes id r) hu with ⟨rfl, hst⟩ | ⟨-, hold⟩
    · cases hst
    · exact h.closes u id r hold
  legal := by
    obtain ⟨s, hlegal, hstands⟩ := h.legal
    refine ⟨s, hlegal, ?_⟩
    -- an idle thread is not the holder
    have hother : ∀ {u : T}, m.thread u ≠ .idle → (m.invoke t c).thread u = m.thread u := by
      intro u hu
      refine Function.update_of_ne ?_ _ _
      rintro rfl
      exact hu hidle
    cases hstands with
    | free hlock hshared => exact .free hlock hshared
    | inside u id c' l hlock hthread hcompletes =>
      refine .inside u id c' l hlock ?_ hcompletes
      rw [hother (by rw [hthread]; simp), hthread]
    | leaving u id r hlock hthread hshared =>
      refine .leaving u id r hlock ?_ hshared
      rw [hother (by rw [hthread]; simp), hthread]
  holder u hu := by
    rcases update_cases (·.Holds) hu with ⟨rfl, hst⟩ | ⟨-, hold⟩
    · cases hst
    · exact h.holder u hold

/-! ## A thread goes on -/

/-- No other thread is inside. -/
theorem Inv.holder_update (h : Inv P spec s₀ m hist) {t : T} (hlock : m.lock = some t)
    (st : ThreadState L C R) (u : T) (hu : (Function.update m.thread t st u).Holds) :
    m.lock = some u := by
  rcases update_cases (·.Holds) hu with ⟨rfl, -⟩ | ⟨-, hold⟩
  · exact hlock
  · exact h.holder u hold

/-- The lock is taken. -/
theorem Inv.acquire (hatomic : ∀ s c, Completes P s (P.start c) (spec s c))
    (h : Inv P spec s₀ m hist) {t : T} {id : ℕ} {c : C} (ht : m.thread t = .waiting id c)
    (hlock : m.lock = none) :
    Inv P spec s₀ { m with
      lock := some t, thread := Function.update m.thread t (.inside id c (P.start c)) } hist := by
  refine ⟨h.toObserved.move ?_ ?_, ?_, ?_⟩
  · rintro id' c' ⟨⟩
    exact ht ▸ .waiting id c
  · rintro id' r ⟨⟩
  · obtain ⟨s, hlegal, hstands⟩ := h.legal
    refine ⟨s, hlegal, .inside t id c _ rfl (Function.update_self _ _ _) ?_⟩
    cases hstands with
    | free hfree hshared => exact hshared ▸ hatomic m.shared c
    | inside u id' c' l' hlock' =>
      rw [hlock] at hlock'
      cases hlock'
    | leaving u id' r hlock' =>
      rw [hlock] at hlock'
      cases hlock'
  · intro u hu
    rcases update_cases (·.Holds) hu with ⟨rfl, -⟩ | ⟨-, hold⟩
    · rfl
    · have hother := h.holder u hold
      rw [hlock] at hother
      cases hother

/-- One step of the work. -/
theorem Inv.work (h : Inv P spec s₀ m hist) {t : T} {id : ℕ} {c : C} {l l₁ : L} {s₁ : S}
    (ht : m.thread t = .inside id c l) (hstep : P.step m.shared l = (s₁, .inl l₁)) :
    Inv P spec s₀ { m with
      shared := s₁, thread := Function.update m.thread t (.inside id c l₁) } hist := by
  obtain ⟨hlock, s, hlegal, hcompletes⟩ := h.inside ht
  refine ⟨h.toObserved.move ?_ ?_, ⟨s, hlegal, .inside t id c l₁ hlock (Function.update_self _ _ _)
    (hcompletes.of_more hstep)⟩, h.holder_update hlock _⟩
  · rintro id' c' ⟨⟩
    exact ht ▸ .inside id c l
  · rintro id' r ⟨⟩

/-- The last step of the work: the call takes effect, and is put at the end of the order. All calls
that have returned are in the order by then, so none of them can be in its way. -/
theorem Inv.finish (h : Inv P spec s₀ m hist) {t : T} {id : ℕ} {c : C} {l : L} {s₁ : S} {r : R}
    (ht : m.thread t = .inside id c l) (hstep : P.step m.shared l = (s₁, .inr r)) :
    Inv P spec s₀ { m with
      shared := s₁, thread := Function.update m.thread t (.leaving id r) }
      (hist ++ [⟨id, t, c, r⟩]) := by
  obtain ⟨hlock, s, hlegal, hcompletes⟩ := h.inside ht
  obtain ⟨hcall, hnew⟩ := h.opens t id c (ht ▸ .inside id c l)
  have hids : (hist ++ [(⟨id, t, c, r⟩ : Entry C R T)]).map Entry.id =
      hist.map Entry.id ++ [id] := by
    rw [List.map_append, List.map_singleton]
  have hlin : Linearizes m.log (hist ++ [(⟨id, t, c, r⟩ : Entry C R T)]) := by
    refine ⟨?_, fun e he => ?_, fun j u q hret => ?_, fun i u q j u' c' hpair hj => ?_⟩
    · rw [hids]
      exact List.nodup_append'.mpr ⟨h.nodup, List.nodup_singleton _,
        List.disjoint_singleton.mpr hnew⟩
    · rcases List.mem_append.mp he with he | he
      · exact h.called e he
      · rw [List.mem_singleton.mp he]
        exact hcall
    · obtain ⟨c', hmem⟩ := h.returned j u q hret
      exact ⟨c', List.mem_append_left _ hmem⟩
    · rw [hids] at hj ⊢
      by_cases hold : j ∈ hist.map Entry.id
      · exact (h.ordered i u q j u' c' hpair hold).trans (List.sublist_append_left _ _)
      · -- the call is the one that takes effect: the returned one is in the order already
        have hj' : j = id := by
          rcases List.mem_append.mp hj with hj | hj
          · exact absurd hj hold
          · exact List.mem_singleton.mp hj
        obtain ⟨c'', hmem⟩ := h.returned i u q (hpair.subset List.mem_cons_self)
        have hi : i ∈ hist.map Entry.id := List.mem_map_of_mem (f := Entry.id) hmem
        rw [hj']
        exact (List.singleton_sublist.mpr hi).append (List.Sublist.refl [id])
  refine ⟨⟨hlin, h.lt_calls, h.unique, fun u id' c' hu => ?_, fun u id' q hu => ?_⟩,
    ⟨s₁, hlegal.concat (hcompletes.of_last hstep), .leaving t id r hlock
      (Function.update_self _ _ _) rfl⟩, h.holder_update hlock _⟩
  · rcases update_cases (·.Opens id' c') hu with ⟨rfl, hst⟩ | ⟨hne, hold⟩
    · cases hst
    · obtain ⟨hcall', hnew'⟩ := h.opens u id' c' hold
      refine ⟨hcall', ?_⟩
      rw [hids]
      intro hmem
      rcases List.mem_append.mp hmem with hmem | hmem
      · exact hnew' hmem
      · rw [List.mem_singleton.mp hmem] at hcall'
        exact hne (h.unique _ _ _ _ _ hcall' hcall).1
  · rcases update_cases (·.Closes id' q) hu with ⟨rfl, hst⟩ | ⟨-, hold⟩
    · cases hst
      exact ⟨c, List.mem_append_right _ (List.mem_singleton_self _)⟩
    · obtain ⟨c', hmem⟩ := h.closes u id' q hold
      exact ⟨c', List.mem_append_left _ hmem⟩

/-- The lock is given back. -/
theorem Inv.unlock (h : Inv P spec s₀ m hist) {t : T} {id : ℕ} {r : R}
    (ht : m.thread t = .leaving id r) :
    Inv P spec s₀ { m with
      lock := none, thread := Function.update m.thread t (.returning id r) } hist := by
  obtain ⟨hlock, hlegal⟩ := h.leaving ht
  refine ⟨h.toObserved.move ?_ ?_, ⟨m.shared, hlegal, .free rfl rfl⟩, ?_⟩
  · rintro id' c' ⟨⟩
  · rintro id' r' ⟨⟩
    exact ht ▸ .leaving id r
  · intro u hu
    rcases update_cases (·.Holds) hu with ⟨rfl, hst⟩ | ⟨hne, hold⟩
    · cases hst
    · exact absurd (Option.some.inj ((h.holder u hold).symm.trans hlock)) hne

/-- The call returns. -/
theorem Inv.respond (h : Inv P spec s₀ m hist) {t : T} {id : ℕ} {r : R}
    (ht : m.thread t = .returning id r) :
    Inv P spec s₀ { m with
      thread := Function.update m.thread t .idle, log := m.log ++ [.ret id t r] } hist := by
  obtain ⟨c, hmem⟩ := h.closes t id r (ht ▸ .returning id r)
  have hcall : ∀ {j u c'}, Event.call j u c' ∈ m.log ++ [.ret id t r] →
      Event.call j u c' ∈ m.log := by
    intro j u c' hcall
    rcases List.mem_append.mp hcall with hcall | hnew
    · exact hcall
    · exact absurd (List.mem_singleton.mp hnew) (by simp)
  refine ⟨⟨⟨h.nodup, fun e he => List.mem_append_left _ (h.called e he), fun j u q hret => ?_,
    fun i u q j u' c' hpair hj => ?_⟩, fun j u c' hj => h.lt_calls j u c' (hcall hj),
    fun j u c₁ u' c₂ hj hj' => h.unique j u c₁ u' c₂ (hcall hj) (hcall hj'),
    fun u id' c' hu => ?_, fun u id' q hu => ?_⟩, ?_, fun u hu => ?_⟩
  · rcases List.mem_append.mp hret with hret | hnew
    · exact h.returned j u q hret
    · cases List.mem_singleton.mp hnew
      exact ⟨c, hmem⟩
  · rcases pair_sublist_concat hpair with hpair | ⟨-, hnew⟩
    · exact h.ordered i u q j u' c' hpair hj
    · cases hnew
  · rcases update_cases (·.Opens id' c') hu with ⟨rfl, hst⟩ | ⟨-, hold⟩
    · cases hst
    · exact ⟨List.mem_append_left _ (h.opens u id' c' hold).1, (h.opens u id' c' hold).2⟩
  · rcases update_cases (·.Closes id' q) hu with ⟨rfl, hst⟩ | ⟨-, hold⟩
    · cases hst
    · exact h.closes u id' q hold
  · obtain ⟨s, hlegal, hstands⟩ := h.legal
    have hother : ∀ {u : T} {st : ThreadState L C R}, st.Holds → m.thread u = st →
        Function.update m.thread t .idle u = st := by
      intro u st hst hu
      rw [Function.update_of_ne, hu]
      rintro rfl
      rw [ht] at hu
      rw [← hu] at hst
      cases hst
    refine ⟨s, hlegal, ?_⟩
    cases hstands with
    | free hlock hshared => exact .free hlock hshared
    | inside u id' c' l hlock hthread hcompletes =>
      exact .inside u id' c' l hlock (hother (.inside id' c' l) hthread) hcompletes
    | leaving u id' q hlock hthread hshared =>
      exact .leaving u id' q hlock (hother (.leaving id' q) hthread) hshared
  · rcases update_cases (·.Holds) hu with ⟨rfl, hst⟩ | ⟨-, hold⟩
    · cases hst
    · exact h.holder u hold

/-- **A step of one thread** keeps the invariant. -/
theorem Inv.advance (hatomic : ∀ s c, Completes P s (P.start c) (spec s c))
    (h : Inv P spec s₀ m hist) {t : T} (hstep : m.advance P t = some m') :
    ∃ hist', Inv P spec s₀ m' hist' := by
  rw [Machine.advance] at hstep
  cases ht : m.thread t with
  | idle =>
    rw [ht] at hstep
    cases hstep
  | waiting id c =>
    rw [ht] at hstep
    cases hlock : m.lock with
    | some u =>
      rw [hlock] at hstep
      cases hstep
    | none =>
      rw [hlock] at hstep
      cases hstep
      exact ⟨hist, h.acquire hatomic ht hlock⟩
  | inside id c l =>
    rw [ht] at hstep
    dsimp only at hstep
    cases hwork : P.step m.shared l with
    | mk s₁ out =>
      rw [hwork] at hstep
      cases out with
      | inl l₁ =>
        cases hstep
        exact ⟨hist, h.work ht hwork⟩
      | inr r =>
        cases hstep
        exact ⟨_, h.finish ht hwork⟩
  | leaving id r =>
    rw [ht] at hstep
    cases hstep
    exact ⟨hist, h.unlock ht⟩
  | returning id r =>
    rw [ht] at hstep
    cases hstep
    exact ⟨hist, h.respond ht⟩

/-- **Any interleaving** keeps the invariant. -/
theorem Reached.inv (hatomic : ∀ s c, Completes P s (P.start c) (spec s c))
    (h : Reached P s₀ m) : ∃ hist, Inv P spec s₀ m hist := by
  induction h with
  | refl => exact ⟨[], inv_init⟩
  | tail _ hstep ih =>
    obtain ⟨hist, hinv⟩ := ih
    cases hstep with
    | invoke t c hidle => exact ⟨hist, hinv.invoke hidle c⟩
    | advance t hmove => exact hinv.advance hatomic hmove

/-- **There is no deadlock**: some thread in a call can go on. If the lock is taken it is the thread
that has it, and otherwise any that waits. -/
theorem Inv.exists_advance (h : Inv P spec s₀ m hist) {t : T} (ht : m.thread t ≠ .idle) :
    ∃ u m', m.advance P u = some m' := by
  have hinside : ∀ {u : T} {id : ℕ} {c : C} {l : L}, m.thread u = .inside id c l →
      ∃ m', m.advance P u = some m' := by
    intro u id c l hu
    rw [Machine.advance, hu]
    dsimp only
    cases P.step m.shared l with
    | mk s₁ out =>
      cases out with
      | inl l₁ => exact ⟨_, rfl⟩
      | inr r => exact ⟨_, rfl⟩
  have hleaving : ∀ {u : T} {id : ℕ} {r : R}, m.thread u = .leaving id r →
      ∃ m', m.advance P u = some m' := by
    intro u id r hu
    rw [Machine.advance, hu]
    exact ⟨_, rfl⟩
  cases hthread : m.thread t with
  | idle => exact absurd hthread ht
  | inside id c l => exact ⟨t, hinside hthread⟩
  | leaving id r => exact ⟨t, hleaving hthread⟩
  | returning id r =>
    refine ⟨t, ?_⟩
    rw [Machine.advance, hthread]
    exact ⟨_, rfl⟩
  | waiting id c =>
    -- the holder can go on, and if there is none, the thread itself
    obtain ⟨s, -, hstands⟩ := h.legal
    cases hstands with
    | free hlock =>
      refine ⟨t, ?_⟩
      rw [Machine.advance, hthread]
      dsimp only
      rw [hlock]
      exact ⟨_, rfl⟩
    | inside u id' c' l hlock hu => exact ⟨u, hinside hu⟩
    | leaving u id' r hlock hu => exact ⟨u, hleaving hu⟩

end Machine

end Foundation
