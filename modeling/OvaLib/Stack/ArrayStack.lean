import OvaLib.Lists.ArrayList

/-!
# The array stack

`stack.c` and `array_stack.c`, for `ARRAY_STACK`: the top of the stack is the end of an array list.

A push is an insertion at the index `size`. A pop reads the last item and removes it, or returns
`NULL` when the list is empty. The size and the failures are those of the list: a push fails when
the list cannot grow, and at `INT_MAX` items.

The stack matters here for its callers inside the library. `graph_depth_first_impl` and `tarjan_dfs`
in `graph_algorithms.c` keep their vertices on one, and neither looks at what a push returns. What
they need is in the two results: a push that has memory and room takes place, and a pop hands out
what was pushed last. The linked stack, which no algorithm uses, is left out.

## Main results

* `ArrayStack.push_always` — with allocations succeeding, an item is pushed below `INT_MAX` items
* `ArrayStack.pop_concat` — a pop takes the top off
-/

namespace OvaLib

/-- `stack`, with the list that is its `impl`. -/
structure ArrayStack (α : Type*) where
  impl : ArrayList α

namespace ArrayStack

variable {α : Type*}

/-- `create_stack`. -/
def create (a : Allocator) : Option (ArrayStack α) × Allocator :=
  let (stk, a) := a.alloc
  if !stk then (none, a)
  else
    match ArrayList.create 10 a with
    | (none, a) => (none, a)
    | (some impl, a) => (some ⟨impl⟩, a)

/-- `stack_size`. -/
def size (s : ArrayStack α) : ℕ := s.impl.size

/-- `array_stack_push`. -/
def push (s : ArrayStack α) (item : α) (a : Allocator) : ErrorCode × ArrayStack α × Allocator :=
  let (e, impl, a) := s.impl.insert item s.impl.size a
  (e, ⟨impl⟩, a)

/-- `array_stack_pop`. -/
def pop (s : ArrayStack α) : Option α × ArrayStack α :=
  if s.impl.size = 0 then (none, s)
  else (s.impl.get (s.impl.size - 1 : ℤ), ⟨(s.impl.remove (s.impl.size - 1 : ℤ)).2⟩)

/-- A stack that was created took four allocations, and is the one there always is. -/
theorem create_passed {a a' : Allocator} {s : ArrayStack α} (h : create a = (some s, a')) :
    a.Passed 4 a' ∧ create .always = (some s, .always) := by
  rw [create] at h ⊢
  dsimp only at h
  split at h
  · exact absurd (Prod.mk.inj h).1 (by simp)
  · next hstk =>
    split at h
    · exact absurd (Prod.mk.inj h).1 (by simp)
    · next impl a₁ himpl =>
      obtain ⟨hs, rfl⟩ := Prod.mk.inj h
      obtain ⟨hpassed, halways⟩ := ArrayList.create_passed himpl
      rw [Bool.not_eq_true', Bool.not_eq_false] at hstk
      refine ⟨(Allocator.passed_alloc hstk).trans hpassed, ?_⟩
      rw [Allocator.alloc_always]
      dsimp only
      rw [Bool.not_true, if_neg Bool.false_ne_true, halways]
      exact congrArg (·, Allocator.always) hs

theorem create_always : ∃ s : ArrayStack α, create Allocator.always = (some s, Allocator.always) ∧
    s.impl.items = [] ∧ 0 < s.impl.capacity := by
  obtain ⟨impl, himpl⟩ : ∃ impl : ArrayList α, ArrayList.create 10 Allocator.always =
      (some impl, Allocator.always) ∧ impl.items = [] ∧ 0 < impl.capacity :=
    ⟨_, ArrayList.create_always (by norm_num) (by decide), rfl, by norm_num⟩
  refine ⟨⟨impl⟩, ?_, himpl.2⟩
  simp only [create, Allocator.alloc_always, Bool.not_true, Bool.false_eq_true, if_false, himpl.1]

/-- With allocations succeeding the item is on top afterwards. -/
theorem push_always {s : ArrayStack α} (hpos : 0 < s.impl.capacity)
    (hsize : s.impl.items.length < intMax) (item : α) :
    ∃ s' : ArrayStack α, s.push item Allocator.always = (.success, s', Allocator.always) ∧
      s'.impl.items = s.impl.items ++ [item] ∧ 0 < s'.impl.capacity := by
  obtain ⟨impl, hinsert, hitems, hcap⟩ := ArrayList.append_always hpos hsize item
  rw [push]
  rw [hinsert]
  exact ⟨_, rfl, hitems, hcap⟩

/-- A pop takes the top off. -/
theorem pop_concat {s : ArrayStack α} {items : List α} {item : α}
    (h : s.impl.items = items ++ [item]) :
    ∃ s' : ArrayStack α, s.pop = (some item, s') ∧ s'.impl.items = items ∧
      s'.impl.capacity = s.impl.capacity := by
  have hsize : s.impl.size = items.length + 1 := by
    rw [ArrayList.size, h, List.length_append, List.length_singleton]
  have hindex : ((s.impl.size : ℤ) - 1).toNat = items.length := by omega
  have hlen : s.impl.items.length = items.length + 1 := hsize
  refine ⟨⟨(s.impl.remove (s.impl.size - 1 : ℤ)).2⟩, ?_, ?_, ?_⟩
  · rw [pop]
    rw [if_neg (by omega), ArrayList.get, if_neg (by omega), hindex, h,
      List.getElem?_append_right (le_refl _), Nat.sub_self]
    rfl
  · rw [ArrayList.remove]
    rw [if_neg (by omega)]
    show s.impl.items.eraseIdx ((s.impl.size : ℤ) - 1).toNat = items
    rw [hindex, h, List.eraseIdx_append_of_length_le (le_refl _), Nat.sub_self]
    exact List.append_nil _
  · rw [ArrayList.remove]
    rw [if_neg (by omega)]

end ArrayStack

end OvaLib
