import OvaLib.Foundation.Lock
import OvaLib.Map.HashMapRefinement

/-!
# The thread-safe hash map

A map of the type `HASH_TABLE` has a lock. `put`, `get`, `remove` and `clear` take it first and give
it back on every way out; what they do in between is cut into atomic steps here, one for each entry
that a loop looks at and one for each assignment to the map. A pointer to an entry is a bucket and
the number of entries in front of it, and it is read from the map as it is at that step. The
allocator is shared like the map.

## What is proved

`Foundation.Lock` has the general result: if every operation takes the lock, does its work in steps
and gives the lock back, then any interleaving of any number of threads has the answers of some
order of the operations, in which no operation comes before one that was over when it began. What it
asks for is that each operation, run alone, comes to its end with the result of the sequential one.
Here these sections are given for the map, and run alone. The order that comes out is one of the
calls of `HashMap`, which refine a finite map, so that the answers of all threads together are those
of a finite map.

The steps are fine enough for the statement to mean something. A loop that walks a chain can be
interrupted between any two entries, and growth while half of the entries have been moved. Were the
lock released too early on some path, the section would not be one, and the proof would fail there.

## Scope

`size`, `capacity` and the clones read the map without the lock and are left out.

## Main results

* `hashSection_completes` — run alone, each operation is the one of `HashMap`
* `hashTable_linearizable` — any number of threads, any interleaving
* `hashTable_get_after_put` — a thread reads what was put before
-/

namespace OvaLib

namespace Map

open Foundation Relation

variable {κ υ : Type*} [DecidableEq κ]

/-! ## The model -/

/-- What the threads share: the map and the allocator. -/
abbrev Shared (κ υ : Type*) := MapImpl κ υ × Allocator

/-- Where an operation is between the lock and the unlock, with its local variables. There is one
constructor for each point at which the source stands between two accesses to the map, and its
arguments are the variables that live across it: an index, a position in a chain, the buckets that
growth fills. -/
inductive Local (κ υ : Type*)
  | putGrow (key : Option κ) (data : Option υ)
  | putResize (key : Option κ) (data : Option υ)
  | putRehash (key : Option κ) (data : Option υ) (newCapacity : ℕ)
      (newBuckets : ℕ → List (MapEntry κ υ)) (i node : ℕ)
  | putIndex (key : Option κ) (data : Option υ)
  | putWalk (key : Option κ) (data : Option υ) (index node : ℕ)
  | putNew (key : Option κ) (data : Option υ) (index : ℕ)
  | putLink (key : Option κ) (data : Option υ) (index : ℕ)
  | putCount
  | getIndex (key : Option κ)
  | getWalk (key : Option κ) (index node : ℕ)
  | removeIndex (key : Option κ)
  | removeWalk (key : Option κ) (index current : ℕ)
  | removeCount (data : Option υ)
  | clearBucket (i : ℕ)
  | clearCount

/-- Where each operation starts. -/
def Call.start : Call κ υ → Local κ υ
  | .put key data => .putGrow key data
  | .get key => .getIndex key
  | .remove key => .removeIndex key
  | .clear => .clearBucket 0

/-- One atomic step: what the source does from one read or write of the shared map to the next. A
step returns the new shared state and either the next point or the answer, after which comes the
unlock. -/
def hashStep (impl : MapFunctions κ) (s : Shared κ υ) :
    Local κ υ → Shared κ υ × (Local κ υ ⊕ Response υ)
  | .putGrow key data =>
    if s.1.size > s.1.capacity - s.1.capacity / 4 then (s, .inl (.putResize key data))
    else (s, .inl (.putIndex key data))
  | .putResize key data =>
    let newCapacity := safeDoubleCapacity s.1.capacity
    if newCapacity = s.1.capacity then (s, .inl (.putIndex key data))
    else
      match s.2.alloc with
      | (false, a) => ((s.1, a), .inl (.putIndex key data))
      | (true, a) => ((s.1, a), .inl (.putRehash key data newCapacity (fun _ => []) 0 0))
  | .putRehash key data newCapacity newBuckets i node =>
    if i < s.1.capacity then
      match (s.1.buckets i)[node]? with
      | some entry =>
        (s, .inl (.putRehash key data newCapacity (relink impl newCapacity newBuckets entry) i
          (node + 1)))
      | none => (s, .inl (.putRehash key data newCapacity newBuckets (i + 1) 0))
    else (({ s.1 with buckets := newBuckets, capacity := newCapacity }, s.2),
      .inl (.putIndex key data))
  | .putIndex key data => (s, .inl (.putWalk key data (mapBucketIndex impl s.1 key) 0))
  | .putWalk key data index node =>
    match (s.1.buckets index)[node]? with
    | some entry =>
      if mapKeysEqual impl entry.key key then
        (({ s.1 with
            buckets := Function.update s.1.buckets index
              ((s.1.buckets index).set node { entry with data := data }) }, s.2),
          .inr (.code .success))
      else (s, .inl (.putWalk key data index (node + 1)))
    | none => (s, .inl (.putNew key data index))
  | .putNew key data index =>
    match s.2.alloc with
    | (false, a) => ((s.1, a), .inr (.code .errorMemory))
    | (true, a) => ((s.1, a), .inl (.putLink key data index))
  | .putLink key data index =>
    (({ s.1 with
        buckets := Function.update s.1.buckets index (⟨key, data⟩ :: s.1.buckets index) }, s.2),
      .inl .putCount)
  | .putCount => (({ s.1 with size := int32 (s.1.size + 1) }, s.2), .inr (.code .success))
  | .getIndex key => (s, .inl (.getWalk key (mapBucketIndex impl s.1 key) 0))
  | .getWalk key index node =>
    match (s.1.buckets index)[node]? with
    | some entry =>
      if mapKeysEqual impl entry.key key then (s, .inr (.data entry.data))
      else (s, .inl (.getWalk key index (node + 1)))
    | none => (s, .inr (.data none))
  | .removeIndex key => (s, .inl (.removeWalk key (mapBucketIndex impl s.1 key) 0))
  | .removeWalk key index current =>
    match (s.1.buckets index)[current]? with
    | some entry =>
      if mapKeysEqual impl entry.key key then
        (({ s.1 with
            buckets := Function.update s.1.buckets index ((s.1.buckets index).eraseIdx current) },
            s.2), .inl (.removeCount entry.data))
      else (s, .inl (.removeWalk key index (current + 1)))
    | none => (s, .inr (.data none))
  | .removeCount data => (({ s.1 with size := int32 (s.1.size - 1) }, s.2), .inr (.data data))
  | .clearBucket i =>
    if i < s.1.capacity then
      (({ s.1 with buckets := Function.update s.1.buckets i [] }, s.2), .inl (.clearBucket (i + 1)))
    else (s, .inl .clearCount)
  | .clearCount => (({ s.1 with size := 0 }, s.2), .inr .unit)

/-- The operations of a map with a lock. -/
def hashSection (impl : MapFunctions κ) :
    CriticalSection (Shared κ υ) (Local κ υ) (Call κ υ) (Response υ) := ⟨Call.start, hashStep impl⟩

/-- `create_hash_map` for a map with a lock: what a map without one needs, then the lock, which
`pthread_mutex_init` may refuse. Then nothing is left of the map. -/
def createHashTable (a : Allocator) (capacity : ℤ) (initialised : Bool) :
    Option (MapImpl κ υ) × Allocator :=
  match createHashMap a capacity with
  | (none, a) => (none, a)
  | (some m, a) =>
    match a.alloc with
    | (false, a) => (none, a)
    | (true, a) => if initialised then (some m, a) else (none, a)

/-- What a call does when nothing else happens: the function of `HashMap`, with its answer. -/
def callAlone (impl : MapFunctions κ) (s : Shared κ υ) (call : Call κ υ) :
    Shared κ υ × Response υ :=
  let (m, response, a) := step impl s.2 s.1 call
  ((m, a), response)

/-! ## One call alone

Each loop is followed by induction on what is left of it. -/

variable (impl : MapFunctions κ) {m : MapImpl κ υ} {a : Allocator} {out : Shared κ υ × Response υ}

/-- The entry behind those that were looked at. -/
theorem getElem?_behind {α : Type*} {chain pre rest : List α} (h : chain = pre ++ rest) :
    chain[pre.length]? = rest.head? := by
  rw [h, List.getElem?_append_right (Nat.le_refl _), Nat.sub_self, List.head?_eq_getElem?]

/-- Looking up, from a place in the chain on. The entries before it have another key, or the loop
would have ended there. -/
theorem completes_getWalk (key : Option κ) (index : ℕ) {pre rest : List (MapEntry κ υ)}
    (h : m.buckets index = pre ++ rest) :
    Completes (hashSection impl) (m, a) (.getWalk key index pre.length)
      ((m, a), .data (match findEntry impl key rest with
        | some node => node.data
        | none => none)) := by
  have hnode := getElem?_behind h
  induction rest generalizing pre with
  | nil =>
    have hstep : (hashSection impl).step (m, a) (.getWalk key index pre.length) =
        ((m, a), .inr (.data none)) := by
      simp only [hashSection, hashStep, hnode, List.head?_nil]
    exact .last hstep
  | cons entry rest ih =>
    by_cases heq : mapKeysEqual impl entry.key key = true
    · have hstep : (hashSection impl).step (m, a) (.getWalk key index pre.length) =
          ((m, a), .inr (.data entry.data)) := by
        simp only [hashSection, hashStep, hnode, List.head?_cons, heq, if_true]
      rw [findEntry, if_pos heq]
      exact .last hstep
    · have hnext : m.buckets index = (pre ++ [entry]) ++ rest := by
        rw [h, List.append_assoc]
        rfl
      have hstep : (hashSection impl).step (m, a) (.getWalk key index pre.length) =
          ((m, a), .inl (.getWalk key index (pre ++ [entry]).length)) := by
        simp only [hashSection, hashStep, hnode, List.head?_cons, if_neg heq, List.length_append,
          List.length_singleton]
      rw [findEntry, if_neg heq]
      exact .more hstep (ih hnext (getElem?_behind hnext))

/-- Removing. -/
theorem completes_removeWalk (key : Option κ) (index : ℕ) {pre rest : List (MapEntry κ υ)}
    (h : m.buckets index = pre ++ rest) :
    Completes (hashSection impl) (m, a) (.removeWalk key index pre.length)
      (match unlinkEntry impl key rest with
        | some (node, chain) =>
          (({ m with
              buckets := Function.update m.buckets index (pre ++ chain)
              size := int32 (m.size - 1) }, a),
            .data node.data)
        | none => ((m, a), .data none)) := by
  have hnode := getElem?_behind h
  induction rest generalizing pre with
  | nil =>
    have hstep : (hashSection impl).step (m, a) (.removeWalk key index pre.length) =
        ((m, a), .inr (.data none)) := by
      simp only [hashSection, hashStep, hnode, List.head?_nil]
    exact .last hstep
  | cons entry rest ih =>
    by_cases heq : mapKeysEqual impl entry.key key = true
    · have hrest : (m.buckets index).eraseIdx pre.length = pre ++ rest := by
        rw [h, List.eraseIdx_append_of_length_le (Nat.le_refl _), Nat.sub_self]
        rfl
      have hstep : (hashSection impl).step (m, a) (.removeWalk key index pre.length) =
          (({ m with buckets := Function.update m.buckets index (pre ++ rest) }, a),
            .inl (.removeCount entry.data)) := by
        simp only [hashSection, hashStep, hnode, List.head?_cons, if_pos heq, hrest]
      rw [unlinkEntry, if_pos heq]
      exact .more hstep (.last rfl)
    · have hnext : m.buckets index = (pre ++ [entry]) ++ rest := by
        rw [h, List.append_assoc]
        rfl
      have hstep : (hashSection impl).step (m, a) (.removeWalk key index pre.length) =
          ((m, a), .inl (.removeWalk key index (pre ++ [entry]).length)) := by
        simp only [hashSection, hashStep, hnode, List.head?_cons, if_neg heq, List.length_append,
          List.length_singleton]
      have hrest := ih hnext (getElem?_behind hnext)
      rw [unlinkEntry, if_neg heq]
      cases hunlink : unlinkEntry impl key rest with
      | none =>
        rw [hunlink] at hrest
        exact .more hstep hrest
      | some r =>
        rw [hunlink] at hrest
        dsimp only at hrest
        rw [List.append_assoc] at hrest
        exact .more hstep hrest

/-- Assigning to an entry, or pushing a new one. The entry is allocated after the walk and pushed at
the front of its chain. -/
theorem completes_putWalk (key : Option κ) (data : Option υ) (index : ℕ)
    {pre rest : List (MapEntry κ υ)} (h : m.buckets index = pre ++ rest) :
    Completes (hashSection impl) (m, a) (.putWalk key data index pre.length)
      (match assignEntry impl key data rest with
        | some chain =>
          (({ m with buckets := Function.update m.buckets index (pre ++ chain) }, a),
            .code .success)
        | none =>
          match a.alloc with
          | (false, a) => ((m, a), .code .errorMemory)
          | (true, a) =>
            (({ m with
                buckets := Function.update m.buckets index (⟨key, data⟩ :: m.buckets index)
                size := int32 (m.size + 1) }, a), .code .success)) := by
  have hnode := getElem?_behind h
  induction rest generalizing pre with
  | nil =>
    have hstep : (hashSection impl).step (m, a) (.putWalk key data index pre.length) =
        ((m, a), .inl (.putNew key data index)) := by
      simp only [hashSection, hashStep, hnode, List.head?_nil]
    refine .more hstep ?_
    rw [assignEntry]
    dsimp only
    cases halloc : a.alloc with
    | mk ok a' =>
      cases ok with
      | false =>
        have hnew : (hashSection impl).step (m, a) (.putNew key data index) =
            ((m, a'), .inr (.code .errorMemory)) := by
          simp only [hashSection, hashStep, halloc]
        exact .last hnew
      | true =>
        have hnew : (hashSection impl).step (m, a) (.putNew key data index) =
            ((m, a'), .inl (.putLink key data index)) := by
          simp only [hashSection, hashStep, halloc]
        exact .more hnew (.more rfl (.last rfl))
  | cons entry rest ih =>
    by_cases heq : mapKeysEqual impl entry.key key = true
    · have hset : (m.buckets index).set pre.length { entry with data := data } =
          pre ++ { entry with data := data } :: rest := by
        rw [h, List.set_append_right _ _ (Nat.le_refl _), Nat.sub_self]
        rfl
      have hstep : (hashSection impl).step (m, a) (.putWalk key data index pre.length) =
          (({ m with
              buckets := Function.update m.buckets index
                (pre ++ { entry with data := data } :: rest) }, a), .inr (.code .success)) := by
        simp only [hashSection, hashStep, hnode, List.head?_cons, if_pos heq, hset]
      rw [assignEntry, if_pos heq]
      exact .last hstep
    · have hnext : m.buckets index = (pre ++ [entry]) ++ rest := by
        rw [h, List.append_assoc]
        rfl
      have hstep : (hashSection impl).step (m, a) (.putWalk key data index pre.length) =
          ((m, a), .inl (.putWalk key data index (pre ++ [entry]).length)) := by
        simp only [hashSection, hashStep, hnode, List.head?_cons, if_neg heq, List.length_append,
          List.length_singleton]
      have hrest := ih hnext (getElem?_behind hnext)
      rw [assignEntry, if_neg heq]
      cases hassign : assignEntry impl key data rest with
      | none =>
        rw [hassign] at hrest
        exact .more hstep hrest
      | some chain =>
        rw [hassign] at hrest
        dsimp only at hrest
        rw [List.append_assoc] at hrest
        exact .more hstep hrest

theorem completes_putIndex (key : Option κ) (data : Option υ) :
    Completes (hashSection impl) (m, a) (.putIndex key data)
      (let (m', error, a') := assignOrPush impl a m key data
       ((m', a'), .code error)) := by
  have hwalk := completes_putWalk impl (a := a) key data (mapBucketIndex impl m key)
    (List.nil_append (m.buckets (mapBucketIndex impl m key))).symm
  have hstep : (hashSection impl).step (m, a) (.putIndex key data) =
      ((m, a), .inl (.putWalk key data (mapBucketIndex impl m key) 0)) := rfl
  refine .more hstep ?_
  rw [assignOrPush]
  dsimp only
  cases hassign : assignEntry impl key data (m.buckets (mapBucketIndex impl m key)) with
  | none =>
    rw [hassign] at hwalk
    cases halloc : a.alloc with
    | mk ok a' =>
      rw [halloc] at hwalk
      cases ok <;> exact hwalk
  | some chain =>
    rw [hassign] at hwalk
    exact hwalk

/-! ## Growth alone

The loop moves one entry at a time, and its result is that of the sequential function. -/

/-- The entries of one bucket are relinked. -/
theorem completes_putRehash_bucket (key : Option κ) (data : Option υ) (newCapacity : ℕ) {i : ℕ}
    (hi : i < m.capacity) {pre rest : List (MapEntry κ υ)} (h : m.buckets i = pre ++ rest)
    {newBuckets : ℕ → List (MapEntry κ υ)}
    (hout : Completes (hashSection impl) (m, a) (.putRehash key data newCapacity
      (rest.foldl (relink impl newCapacity) newBuckets) (i + 1) 0) out) :
    Completes (hashSection impl) (m, a)
      (.putRehash key data newCapacity newBuckets i pre.length) out := by
  have hnode := getElem?_behind h
  induction rest generalizing pre newBuckets with
  | nil =>
    have hstep : (hashSection impl).step (m, a)
        (.putRehash key data newCapacity newBuckets i pre.length) =
          ((m, a), .inl (.putRehash key data newCapacity newBuckets (i + 1) 0)) := by
      simp only [hashSection, hashStep, if_pos hi, hnode, List.head?_nil]
    exact .more hstep hout
  | cons entry rest ih =>
    have hnext : m.buckets i = (pre ++ [entry]) ++ rest := by
      rw [h, List.append_assoc]
      rfl
    have hstep : (hashSection impl).step (m, a)
        (.putRehash key data newCapacity newBuckets i pre.length) =
          ((m, a), .inl (.putRehash key data newCapacity
            (relink impl newCapacity newBuckets entry) i (pre ++ [entry]).length)) := by
      simp only [hashSection, hashStep, if_pos hi, hnode, List.head?_cons, List.length_append,
        List.length_singleton]
    exact .more hstep (ih hnext hout (getElem?_behind hnext))

/-- The buckets from `i` on are relinked. The map is not changed until all of them are, and then in
one step, which is why the buckets being filled are a variable of the operation. -/
theorem completes_putRehash (key : Option κ) (data : Option υ) (newCapacity : ℕ)
    {newBuckets : ℕ → List (MapEntry κ υ)} {i n : ℕ} (hin : i + n = m.capacity)
    (hout : Completes (hashSection impl)
      ({ m with
        buckets := (List.range' i n).foldl
          (fun newBuckets i => (m.buckets i).foldl (relink impl newCapacity) newBuckets) newBuckets
        capacity := newCapacity }, a) (.putIndex key data) out) :
    Completes (hashSection impl) (m, a) (.putRehash key data newCapacity newBuckets i 0) out := by
  induction n generalizing i newBuckets with
  | zero =>
    have hstep : (hashSection impl).step (m, a)
        (.putRehash key data newCapacity newBuckets i 0) =
          (({ m with buckets := newBuckets, capacity := newCapacity }, a),
            .inl (.putIndex key data)) := by
      simp only [hashSection, hashStep, if_neg (show ¬ i < m.capacity by omega)]
    exact .more hstep hout
  | succ n ih =>
    rw [List.range'_succ, List.foldl_cons] at hout
    exact completes_putRehash_bucket impl key data newCapacity (by omega)
      (List.nil_append (m.buckets i)).symm
      (ih (by omega) hout)

theorem completes_putResize (key : Option κ) (data : Option υ) :
    Completes (hashSection impl) (m, a) (.putResize key data)
      (let (m', a') := resizeAndRehash impl a m
       let (m'', error, a'') := assignOrPush impl a' m' key data
       ((m'', a''), .code error)) := by
  rw [resizeAndRehash]
  dsimp only
  by_cases hsame : safeDoubleCapacity m.capacity = m.capacity
  · have hstep : (hashSection impl).step (m, a) (.putResize key data) =
        ((m, a), .inl (.putIndex key data)) := by
      simp only [hashSection, hashStep, if_pos hsame]
    rw [if_pos hsame]
    exact .more hstep (completes_putIndex impl key data)
  · rw [if_neg hsame]
    cases halloc : a.alloc with
    | mk ok a' =>
      cases ok with
      | false =>
        have hstep : (hashSection impl).step (m, a) (.putResize key data) =
            ((m, a'), .inl (.putIndex key data)) := by
          simp only [hashSection, hashStep, if_neg hsame, halloc]
        exact .more hstep (completes_putIndex impl key data)
      | true =>
        have hstep : (hashSection impl).step (m, a) (.putResize key data) =
            ((m, a'), .inl (.putRehash key data (safeDoubleCapacity m.capacity)
              (fun _ => []) 0 0)) := by
          simp only [hashSection, hashStep, if_neg hsame, halloc]
        refine .more hstep (completes_putRehash impl key data _ (Nat.zero_add _) ?_)
        rw [← List.range_eq_range']
        exact completes_putIndex impl key data

/-! ## The operations alone -/

/-- The buckets from `i` on are emptied. -/
theorem completes_clearBucket {i n : ℕ} (hin : i + n = m.capacity) :
    Completes (hashSection impl) (m, a) (.clearBucket i)
      (({ m with
          buckets := fun j => if i ≤ j ∧ j < m.capacity then [] else m.buckets j, size := 0 }, a),
        .unit) := by
  induction n generalizing i m with
  | zero =>
    have hnone : (fun j => if i ≤ j ∧ j < m.capacity then [] else m.buckets j) = m.buckets := by
      funext j
      exact if_neg (by omega)
    have hstep : (hashSection impl).step (m, a) (.clearBucket i) =
        ((m, a), .inl .clearCount) := by
      simp only [hashSection, hashStep, if_neg (show ¬ i < m.capacity by omega)]
    rw [hnone]
    exact .more hstep (.last rfl)
  | succ n ih =>
    have hstep : (hashSection impl).step (m, a) (.clearBucket i) =
        (({ m with buckets := Function.update m.buckets i [] }, a),
          .inl (.clearBucket (i + 1))) := by
      simp only [hashSection, hashStep, if_pos (show i < m.capacity by omega)]
    have hrest := ih (m := { m with buckets := Function.update m.buckets i [] }) (i := i + 1)
      (show i + 1 + n = m.capacity by omega)
    have hbuckets : (fun j => if i + 1 ≤ j ∧ j < m.capacity then []
        else Function.update m.buckets i [] j) =
          fun j => if i ≤ j ∧ j < m.capacity then [] else m.buckets j := by
      funext j
      by_cases hj : j = i
      · rw [hj, Function.update_self, ite_self, if_pos (by omega)]
      · rw [Function.update_of_ne hj]
        exact if_congr (by omega) rfl rfl
    refine .more hstep ?_
    rw [← hbuckets]
    exact hrest

/-- **Run alone, each operation is the one without a lock.** This is all that the library asks of
the operations. -/
theorem hashSection_completes (impl : MapFunctions κ) (s : Shared κ υ) (call : Call κ υ) :
    Completes (hashSection impl) s ((hashSection impl).start call) (callAlone impl s call) := by
  obtain ⟨m, a⟩ := s
  cases call with
  | put key data =>
    have hcall : callAlone impl (m, a) (.put key data) =
        (let (m', error, a') := hashInsert impl a m key data
         ((m', a'), .code error)) := rfl
    rw [hcall, hashInsert]
    by_cases hfull : m.size > m.capacity - m.capacity / 4
    · have hstep : (hashSection impl).step (m, a) (.putGrow key data) =
          ((m, a), .inl (.putResize key data)) := by
        simp only [hashSection, hashStep, if_pos hfull]
      rw [if_pos hfull]
      exact .more hstep (completes_putResize impl key data)
    · have hstep : (hashSection impl).step (m, a) (.putGrow key data) =
          ((m, a), .inl (.putIndex key data)) := by
        simp only [hashSection, hashStep, if_neg hfull]
      rw [if_neg hfull]
      exact .more hstep (completes_putIndex impl key data)
  | get key =>
    have hstep : (hashSection impl).step (m, a) (.getIndex key) =
        ((m, a), .inl (.getWalk key (mapBucketIndex impl m key) 0)) := rfl
    exact .more hstep (completes_getWalk impl key _ (List.nil_append (m.buckets _)).symm)
  | remove key =>
    have hwalk := completes_removeWalk impl (a := a) key (mapBucketIndex impl m key)
      (List.nil_append (m.buckets (mapBucketIndex impl m key))).symm
    have hstep : (hashSection impl).step (m, a) (.removeIndex key) =
        ((m, a), .inl (.removeWalk key (mapBucketIndex impl m key) 0)) := rfl
    have hcall : callAlone impl (m, a) (.remove key) =
        (((hashRemove impl m key).1, a), .data (hashRemove impl m key).2) := rfl
    rw [hcall, hashRemove]
    refine .more hstep ?_
    cases hunlink : unlinkEntry impl key (m.buckets (mapBucketIndex impl m key)) with
    | none =>
      rw [hunlink] at hwalk
      exact hwalk
    | some r =>
      rw [hunlink] at hwalk
      exact hwalk
  | clear =>
    have hclear := completes_clearBucket impl (a := a) (Nat.zero_add m.capacity)
    simp only [Nat.zero_le, true_and] at hclear
    exact hclear

/-! ## Any interleaving -/

variable {impl} {T : Type*}

theorem createHashTable_represents (h : impl.Lawful) {a' : Allocator} {capacity : ℤ} {ok : Bool}
    (hm : createHashTable a capacity ok = (some m, a')) : Represents h m fun _ => none := by
  rw [createHashTable] at hm
  cases hcreate : createHashMap (κ := κ) (υ := υ) a capacity with
  | mk out a₁ =>
    rw [hcreate] at hm
    cases out with
    | none => cases hm
    | some m₁ =>
      dsimp only at hm
      cases halloc : a₁.alloc with
      | mk allocated a₂ =>
        rw [halloc] at hm
        cases allocated with
        | false => cases hm
        | true =>
          cases ok with
          | false => cases hm
          | true =>
            cases hm
            exact createHashMap_represents h hcreate

/-- The sequential order answers as the finite map does. It is an order of calls to `HashMap`, each
refining a step of the finite map, with the allocator as it was left by the call before. -/
theorem legal_mapRun (h : impl.Lawful) {hist : List (Entry (Call κ υ) (Response υ) T)}
    {s s' : Shared κ υ} {M : KeyMap h υ} (hs : Represents h s.1 M)
    (hlegal : Legal (callAlone impl) s hist s') :
    ∃ M', MapRun h M (hist.map Entry.call) (hist.map Entry.response) M' ∧
      Represents h s'.1 M' := by
  induction hist generalizing s M with
  | nil =>
    obtain rfl : s' = s := hlegal
    exact ⟨M, .nil M, hs⟩
  | cons e hist ih =>
    obtain ⟨hresponse, hrest⟩ := hlegal
    obtain ⟨M₁, hstep, hs₁⟩ := step_refines hs s.2 e.call
    obtain ⟨M₂, hrun, hs₂⟩ := ih (s := (callAlone impl s e.call).1) hs₁ hrest
    have hhead : MapStep h M e.call e.response M₁ := hresponse ▸ hstep
    exact ⟨M₂, .cons hhead hrun, hs₂⟩

variable [DecidableEq T] {machine : Machine (Shared κ υ) (Local κ υ) (Call κ υ) (Response υ) T}

/-- **The map with a lock is linearizable.** Whatever allocations fail and however the steps of any
number of threads interleave, one sequential order explains every call that has returned: it answers
as the finite map does, and keeps the order of calls that do not overlap. One thread at a time is
between lock and unlock, some thread in a call can always go on, and when no thread is in a call the
map represents what the order leads to. -/
theorem hashTable_linearizable (h : impl.Lawful) {a' : Allocator} {capacity : ℤ} {ok : Bool}
    (hcreate : createHashTable a capacity ok = (some m, a'))
    (hreach : Machine.Reached (hashSection impl) (m, a') machine) :
    ∃ hist M, Linearizes machine.log hist ∧
      MapRun h (fun _ => none) (hist.map Entry.call) (hist.map Entry.response) M ∧
      (∀ t u, (machine.thread t).Holds → (machine.thread u).Holds → t = u) ∧
      (∀ t, machine.thread t ≠ .idle → ∃ u machine',
        machine.advance (hashSection impl) u = some machine') ∧
      ((∀ t, machine.thread t = .idle) → Represents h machine.shared.1 M) := by
  obtain ⟨hist, hinv⟩ := hreach.inv (hashSection_completes impl)
  obtain ⟨s, hlegal, hstands⟩ := hinv.legal
  obtain ⟨M, hrun, hM⟩ := legal_mapRun h (createHashTable_represents h hcreate) hlegal
  refine ⟨hist, M, hinv.toLinearizes, hrun, fun t u => hinv.exclusive,
    fun t => hinv.exists_advance, fun hidle => ?_⟩
  cases hstands with
  | free hlock hshared => exact hshared ▸ hM
  | inside t id c l hlock hthread =>
    rw [hidle t] at hthread
    cases hthread
  | leaving t id r hlock hthread =>
    rw [hidle t] at hthread
    cases hthread

/-- One thread puts, and while it is inside another one asks for the same key. -/
def twoThreads : List (Bool × Option (Call ℕ ℕ)) :=
  (false, some (.put (some 7) (some 3))) :: List.replicate 4 (false, none) ++
    (true, some (.get (some 7))) :: List.replicate 5 (false, none) ++ List.replicate 5 (true, none)

theorem hashTable_linearizable_twoThreads :
    ∃ (machine : Machine (Shared ℕ ℕ) (Local ℕ ℕ) (Call ℕ ℕ) (Response ℕ) Bool)
      (hist : List (Entry (Call ℕ ℕ) (Response ℕ) Bool)),
      Linearizes machine.log hist ∧ machine.log =
        [.call 0 false (.put (some 7) (some 3)), .call 1 true (.get (some 7)),
          .ret 0 false (.code .success), .ret 1 true (.data (some 3))] := by
  have hlog : (Machine.play (hashSection remainderFunctions) twoThreads
      (Machine.init (⟨fun _ => [], 20, 0⟩, .always))).map Machine.log = some
        [.call 0 false (.put (some 7) (some 3)), .call 1 true (.get (some 7)),
          .ret 0 false (.code .success), .ret 1 true (.data (some 3))] := rfl
  obtain ⟨machine, hplay, hmachine⟩ := Option.map_eq_some_iff.mp hlog
  obtain ⟨hist, -, hlin, -⟩ := hashTable_linearizable remainderFunctions_lawful
    (show createHashTable .always 0 true = (some ⟨fun _ => [], 20, 0⟩, .always) from rfl)
    (Machine.reflTransGen_of_play hplay)
  exact ⟨machine, hist, hlin, hmachine⟩

/-! ## Reading what was put -/

/-- The call may change what is bound to the key. -/
def Touches (impl : MapFunctions κ) (key : Option κ) : Call κ υ → Prop
  | .put k _ => mapKeysEqual impl k key = true
  | .get _ => False
  | .remove k => mapKeysEqual impl k key = true
  | .clear => True

theorem mapStep_of_not_touches {h : impl.Lawful} {M M' : KeyMap h υ} {call : Call κ υ}
    {response : Response υ} (hstep : MapStep h M call response M') {key : Option κ}
    (hcall : ¬ Touches impl key call) : M' (keyClass h key) = M (keyClass h key) := by
  classical
  cases hstep with
  | put k data =>
    refine Function.update_of_ne ?_ _ _
    exact fun heq => hcall ((keyClass_eq_iff h).mp heq.symm)
  | putFailed k data habsent => rfl
  | get k => rfl
  | remove k =>
    refine Function.update_of_ne ?_ _ _
    exact fun heq => hcall ((keyClass_eq_iff h).mp heq.symm)
  | clear => exact absurd trivial hcall

theorem mapRun_of_not_touches {h : impl.Lawful} {calls : List (Call κ υ)}
    {responses : List (Response υ)} {M M' : KeyMap h υ} (hrun : MapRun h M calls responses M')
    {key : Option κ} (hcalls : ∀ call ∈ calls, ¬ Touches impl key call) :
    M' (keyClass h key) = M (keyClass h key) := by
  induction hrun with
  | nil M => rfl
  | cons head tail ih =>
    rw [ih fun call hcall => hcalls call (List.mem_cons_of_mem _ hcall)]
    exact mapStep_of_not_touches head (hcalls _ List.mem_cons_self)

/-- **A `get` returns what was put before it**, by whatever thread: when the `put` returned before
the `get` was made, and every other call that touches the key returned before the `put` was made or
was made after the `get` returned. -/
theorem hashTable_get_after_put (h : impl.Lawful) {a' : Allocator} {capacity : ℤ} {ok : Bool}
    (hcreate : createHashTable a capacity ok = (some m, a'))
    (hreach : Machine.Reached (hashSection impl) (m, a') machine) {i j : ℕ} {t u : T}
    {key key' : Option κ} {data : Option υ} {response : Response υ}
    (hkey : mapKeysEqual impl key key' = true)
    (hput : Event.call i t (.put key data) ∈ machine.log)
    (hbefore : [Event.ret i t (.code .success), Event.call j u (.get key')].Sublist machine.log)
    (hget : Event.ret j u response ∈ machine.log)
    (hother : ∀ k w c, Event.call k w c ∈ machine.log → Touches impl key' c → k ≠ i →
      (∃ r, [Event.ret k w r, Event.call i t (.put key data)].Sublist machine.log) ∨
        [Event.ret j u response, Event.call k w c].Sublist machine.log) :
    response = .data data := by
  classical
  obtain ⟨hist, hinv⟩ := hreach.inv (hashSection_completes impl)
  obtain ⟨s, hlegal, -⟩ := hinv.legal
  have hentry : ∀ {id w r c}, Event.ret id w r ∈ machine.log → Event.call id w c ∈ machine.log →
      ⟨id, w, c, r⟩ ∈ hist := by
    intro id w r c hret hcall
    obtain ⟨c', hmem⟩ := hinv.returned id w r hret
    rwa [(hinv.unique _ _ _ _ _ hcall (hinv.called _ hmem)).2]
  have hmem := hentry (hbefore.subset List.mem_cons_self) hput
  have hmem' := hentry hget (hbefore.subset (List.mem_cons_of_mem _ List.mem_cons_self))
  obtain ⟨front, between, rest, hsplit, hbetween⟩ := hinv.exists_between hmem hmem' hbefore
  rw [hsplit] at hlegal
  obtain ⟨s₁, hfront, hresponse, hlegal'⟩ := legal_append.mp hlegal
  obtain ⟨s₂, hmiddle, hresponse', -⟩ := legal_append.mp hlegal'
  obtain ⟨M₁, -, hM₁⟩ := legal_mapRun h (createHashTable_represents h hcreate) hfront
  obtain ⟨M₂, hstep, hM₂⟩ := step_refines hM₁ s₁.2 (.put key data)
  obtain ⟨M₃, hrun, hM₃⟩ := legal_mapRun (s := (callAlone impl s₁ (.put key data)).1) h hM₂ hmiddle
  have hbound : M₂ (keyClass h key') = some data := by
    rw [show (step impl s₁.2 s₁.1 (.put key data)).2.1 = .code .success from hresponse] at hstep
    cases hstep
    rw [(keyClass_eq_iff h).mpr hkey, Function.update_self]
  have hkept : M₃ (keyClass h key') = M₂ (keyClass h key') := by
    refine mapRun_of_not_touches hrun fun call hcall htouch => ?_
    obtain ⟨e, he, rfl⟩ := List.mem_map.mp hcall
    obtain ⟨hne, hnot, hnot'⟩ := hbetween e he
    have hcalled := hinv.called e (by
      rw [hsplit]
      simp [he])
    rcases hother e.id e.thread e.call hcalled htouch hne with ⟨r, hr⟩ | hafter
    · exact hnot r hr
    · exact hnot' response hafter
  have hread : Response.data (hashGet impl s₂.1 key') = response := hresponse'
  rw [← hread, hashGet_eq hM₃, hkept, hbound]
  rfl

/-- One thread puts, and then another one asks. -/
def handOver : List (Bool × Option (Call ℕ ℕ)) :=
  (false, some (.put (some 7) (some 3))) :: List.replicate 9 (false, none) ++
    (true, some (.get (some 7))) :: List.replicate 5 (true, none)

theorem hashTable_get_after_put_handOver :
    ∃ machine, Machine.play (hashSection remainderFunctions) handOver
        (Machine.init (⟨fun _ => [], 20, 0⟩, .always)) = some machine ∧
      ∀ response, Event.ret 1 true response ∈ machine.log → response = .data (some 3) := by
  have hlog : (Machine.play (hashSection remainderFunctions) handOver
      (Machine.init (⟨fun _ => [], 20, 0⟩, .always))).map Machine.log = some
        [.call 0 false (.put (some 7) (some 3)), .ret 0 false (.code .success),
          .call 1 true (.get (some 7)), .ret 1 true (.data (some 3))] := rfl
  obtain ⟨machine, hplay, hmachine⟩ := Option.map_eq_some_iff.mp hlog
  refine ⟨machine, hplay, fun response hget => ?_⟩
  refine hashTable_get_after_put remainderFunctions_lawful
    (show createHashTable .always 0 true = (some ⟨fun _ => [], 20, 0⟩, .always) from rfl)
    (Machine.reflTransGen_of_play hplay)
    (show mapKeysEqual remainderFunctions (some 7) (some 7) = true by decide)
    (show Event.call 0 false (.put (some 7) (some 3)) ∈ machine.log by rw [hmachine]; simp)
    (by rw [hmachine]; simp) hget ?_
  -- no other call touches the key
  intro k w c hcall htouch hne
  rw [hmachine] at hcall
  simp only [List.mem_cons, Event.call.injEq, reduceCtorEq, List.not_mem_nil, or_false,
    false_or] at hcall
  rcases hcall with ⟨rfl, -⟩ | ⟨-, -, rfl⟩
  · exact absurd rfl hne
  · exact absurd htouch id

end Map

end OvaLib
