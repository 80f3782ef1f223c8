import Mathlib.Data.Int.Notation
import Mathlib.Logic.Function.Basic
import OvaLib.Types

/-!
# The hash map

`hash_map.c`. Keys and values are `void *`; the non-`NULL` ones come from the types `κ` and `υ`. The
bucket array is a function from indices to chains, and a chain is the list of its entries from the
head on.

## The contract

`put` binds a key to a value, over an older binding if there is one, and returns `OVA_SUCCESS` or a
negative code. `get` returns the value, and `remove` unbinds the key and returns what it was bound
to; both return `NULL` for a key that is not bound. A key bound to `NULL` looks the same to them,
and `NULL` may be a key as well.

## Growth

`put` may reallocate the bucket array, when there are more than `capacity - capacity / 4` entries,
and goes on without the larger array when it cannot have it. The capacity doubles up to `INT_MAX`.
Every entry is pushed onto the chain of its key in the new array, so chains change their order. Then
`put` walks the chain of its key, overwrites the value if the key is there, and otherwise allocates
an entry and pushes it. Only that last allocation can make it fail.

## Scope

The size is an `int` and wraps around past `INT_MAX` entries; a negative size never asks for growth.
The lock of a thread-safe map is left out: a run here is one thread's, and `HashTable` is about
threads. `put_bulk` is a loop of `put`.
-/

namespace OvaLib

namespace Map

/-- `INITIAL_CAPACITY`. -/
def initialCapacity : ℕ := 20

/-- The function fields of a `map_impl`, which never change. -/
structure MapFunctions (κ : Type*) where
  /-- The bucket of a key for a capacity. -/
  hashFunc : κ → ℕ → ℕ
  /-- `NULL` when pointers are compared. -/
  keyCompare : Option (κ → κ → ℤ)

/-- `map_entry`. -/
structure MapEntry (κ υ : Type*) where
  key : Option κ
  data : Option υ
  deriving DecidableEq, Repr

/-- The other fields of a `map_impl`. -/
structure MapImpl (κ υ : Type*) where
  buckets : ℕ → List (MapEntry κ υ)
  capacity : ℕ
  size : ℤ

variable {κ υ : Type*} [DecidableEq κ]

/-- `safe_key_equals`. -/
def safeKeyEquals (k₁ k₂ : Option κ) (cmp : κ → κ → ℤ) : Bool :=
  match k₁, k₂ with
  | none, none => true
  | some a, some b => cmp a b = 0
  | _, _ => false

/-- `map_keys_equal`. -/
def mapKeysEqual (impl : MapFunctions κ) (lhs rhs : Option κ) : Bool :=
  match impl.keyCompare with
  | none => lhs = rhs
  | some cmp => safeKeyEquals lhs rhs cmp

/-- The bucket of a key in an array of the given capacity. -/
def bucketAt (impl : MapFunctions κ) (capacity : ℕ) (key : Option κ) : ℕ :=
  match key with
  | none => 0
  | some k => impl.hashFunc k capacity

/-- `map_bucket_index`. -/
def mapBucketIndex (impl : MapFunctions κ) (m : MapImpl κ υ) (key : Option κ) : ℕ :=
  if m.capacity = 0 then 0 else bucketAt impl m.capacity key

/-! ## Growth -/

/-- Push one entry onto the chain it belongs to. -/
def relink (impl : MapFunctions κ) (newCapacity : ℕ) (newBuckets : ℕ → List (MapEntry κ υ))
    (node : MapEntry κ υ) : ℕ → List (MapEntry κ υ) :=
  Function.update newBuckets (bucketAt impl newCapacity node.key)
    (node :: newBuckets (bucketAt impl newCapacity node.key))

/-- `resize_and_rehash`. -/
def resizeAndRehash (impl : MapFunctions κ) (a : Allocator) (m : MapImpl κ υ) :
    MapImpl κ υ × Allocator :=
  let newCapacity := safeDoubleCapacity m.capacity
  if newCapacity = m.capacity then (m, a)
  else
    match a.alloc with
    | (false, a') => (m, a')
    | (true, a') =>
      let newBuckets := (List.range m.capacity).foldl
        (fun newBuckets i => (m.buckets i).foldl (relink impl newCapacity) newBuckets) fun _ => []
      ({ m with buckets := newBuckets, capacity := newCapacity }, a')

/-! ## Walking a chain

The three operations walk to the first entry with an equal key. What they do there differs, so each
has a function of its own. -/

/-- The first entry of a chain with an equal key. -/
def findEntry (impl : MapFunctions κ) (key : Option κ) :
    List (MapEntry κ υ) → Option (MapEntry κ υ)
  | [] => none
  | node :: next => if mapKeysEqual impl node.key key then some node else findEntry impl key next

/-- Overwrite the value of the first entry with an equal key, if there is one. -/
def assignEntry (impl : MapFunctions κ) (key : Option κ) (data : Option υ) :
    List (MapEntry κ υ) → Option (List (MapEntry κ υ))
  | [] => none
  | node :: next =>
    if mapKeysEqual impl node.key key then some ({ node with data := data } :: next)
    else (assignEntry impl key data next).map (node :: ·)

/-- Unlink the first entry with an equal key, and hand it back with the shorter chain. -/
def unlinkEntry (impl : MapFunctions κ) (key : Option κ) :
    List (MapEntry κ υ) → Option (MapEntry κ υ × List (MapEntry κ υ))
  | [] => none
  | node :: next =>
    if mapKeysEqual impl node.key key then some (node, next)
    else (unlinkEntry impl key next).map fun r => (r.1, node :: r.2)

/-! ## The operations -/

/-- The part of `hash_insert` after the growth. -/
def assignOrPush (impl : MapFunctions κ) (a : Allocator) (m : MapImpl κ υ) (key : Option κ)
    (data : Option υ) : MapImpl κ υ × ErrorCode × Allocator :=
  let index := mapBucketIndex impl m key
  match assignEntry impl key data (m.buckets index) with
  | some chain => ({ m with buckets := Function.update m.buckets index chain }, .success, a)
  | none =>
    match a.alloc with
    | (false, a') => (m, .errorMemory, a')
    | (true, a') =>
      ({ m with
          buckets := Function.update m.buckets index (⟨key, data⟩ :: m.buckets index)
          size := int32 (m.size + 1) }, .success, a')

/-- `hash_insert`. -/
def hashInsert (impl : MapFunctions κ) (a : Allocator) (m : MapImpl κ υ) (key : Option κ)
    (data : Option υ) : MapImpl κ υ × ErrorCode × Allocator :=
  if m.size > m.capacity - m.capacity / 4 then
    let (m', a') := resizeAndRehash impl a m
    assignOrPush impl a' m' key data
  else assignOrPush impl a m key data

/-- `hash_get`. -/
def hashGet (impl : MapFunctions κ) (m : MapImpl κ υ) (key : Option κ) : Option υ :=
  match findEntry impl key (m.buckets (mapBucketIndex impl m key)) with
  | some node => node.data
  | none => none

/-- `hash_remove`. -/
def hashRemove (impl : MapFunctions κ) (m : MapImpl κ υ) (key : Option κ) :
    MapImpl κ υ × Option υ :=
  let index := mapBucketIndex impl m key
  match unlinkEntry impl key (m.buckets index) with
  | some (node, chain) =>
    ({ m with buckets := Function.update m.buckets index chain, size := int32 (m.size - 1) },
      node.data)
  | none => (m, none)

/-- `hash_size`. -/
def hashSize (m : MapImpl κ υ) : ℤ := m.size

/-- `hash_capacity`. -/
def hashCapacity (m : MapImpl κ υ) : ℕ := m.capacity

/-- `hash_clear`. -/
def hashClear (m : MapImpl κ υ) : MapImpl κ υ :=
  { m with buckets := fun i => if i < m.capacity then [] else m.buckets i, size := 0 }

/-- `create_hash_map` for a map without a lock: the `map`, its `map_impl` and the bucket array are
allocated in turn. -/
def createHashMap (a : Allocator) (capacity : ℤ) : Option (MapImpl κ υ) × Allocator :=
  let capacity := if capacity < initialCapacity then initialCapacity else capacity.toNat
  match a.alloc with
  | (false, a) => (none, a)
  | (true, a) =>
    match a.alloc with
    | (false, a) => (none, a)
    | (true, a) =>
      match a.alloc with
      | (false, a) => (none, a)
      | (true, a) => (some ⟨fun _ => [], capacity, 0⟩, a)

end Map

end OvaLib
