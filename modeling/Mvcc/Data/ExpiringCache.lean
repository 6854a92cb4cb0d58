/-!
# A bounded cache whose entries expire

Beyond the capacity, the entry inserted first is evicted. A queue of insertions records the order.
Replacing or removing an entry leaves a stale place in the queue, recognised by its sequence number.
Stale places are swept out when the queue exceeds twice the capacity, computed in a machine word.

The clock of a cache does not advance between two uses, so entries of positive lifetime never
expire, and entries of lifetime zero are expired when read.
-/

namespace Mvcc

structure CacheSlot (κ ν : Type) where
  key : κ
  value : ν
  insertion : Nat
  deriving DecidableEq

/-- A cache of at most `capacity` entries, each kept for `lifetime` milliseconds. -/
structure ExpiringCache (κ ν : Type) where
  capacity : Nat
  lifetime : UInt64
  slots : List (CacheSlot κ ν)
  /-- Insertions, oldest first; stale once their slot is replaced. -/
  order : List (κ × Nat)
  insertions : Nat
  deriving DecidableEq

namespace ExpiringCache

variable {κ ν : Type} [DecidableEq κ]

/-- An empty cache. A capacity of zero counts as one. -/
def new (capacity : Nat) (lifetime : UInt64) : ExpiringCache κ ν :=
  ⟨max capacity 1, lifetime, [], [], 0⟩

def slot? (slots : List (CacheSlot κ ν)) (key : κ) : Option (CacheSlot κ ν) :=
  slots.find? (·.key = key)

def without (slots : List (CacheSlot κ ν)) (key : κ) : List (CacheSlot κ ν) :=
  slots.filter (·.key ≠ key)

/-- Whether a place in the queue is the one its key's slot was inserted at. -/
def isCurrent (slots : List (CacheSlot κ ν)) (place : κ × Nat) : Bool :=
  (slot? slots place.1).map (·.insertion) = some place.2

def keepsEntries (cache : ExpiringCache κ ν) : Bool := 0 < cache.lifetime

/-- The live value of `key`. An expired entry is dropped when it is read. -/
def get (cache : ExpiringCache κ ν) (key : κ) : Option ν × ExpiringCache κ ν :=
  match slot? cache.slots key with
  | none => (none, cache)
  | some slot =>
    if cache.keepsEntries then (some slot.value, cache)
    else (none, { cache with slots := without cache.slots key })

/-- Drop the oldest entries until at most `capacity` are left, passing over stale places. -/
def evict (capacity : Nat) :
    List (κ × Nat) → List (CacheSlot κ ν) → List (κ × Nat) × List (CacheSlot κ ν)
  | [], slots => ([], slots)
  | place :: order, slots =>
    if capacity < slots.length then
      evict capacity order (if isCurrent slots place then without slots place.1 else slots)
    else (place :: order, slots)

/-- Twice the capacity in a machine word: a capacity of `2 ^ 63` or more wraps around. -/
def sweepLength (capacity : Nat) : Nat := 2 * capacity % UInt64.size

def sweep (capacity : Nat) (slots : List (CacheSlot κ ν)) (order : List (κ × Nat)) :
    List (κ × Nat) :=
  if sweepLength capacity < order.length then order.filter (isCurrent slots) else order

def insert (cache : ExpiringCache κ ν) (key : κ) (value : ν) : ExpiringCache κ ν :=
  let slots := without cache.slots key ++ [⟨key, value, cache.insertions⟩]
  let (order, slots) := evict cache.capacity (cache.order ++ [(key, cache.insertions)]) slots
  { cache with
    slots := slots
    order := sweep cache.capacity slots order
    insertions := cache.insertions + 1 }

/-- `insert` with overflow checks on twice the capacity and on the insertion count. -/
def insertChecked? (cache : ExpiringCache κ ν) (key : κ) (value : ν) :
    Option (ExpiringCache κ ν) :=
  if 2 * cache.capacity < UInt64.size ∧ cache.insertions + 1 < UInt64.size then
    some (cache.insert key value)
  else none

def remove (cache : ExpiringCache κ ν) (key : κ) : ExpiringCache κ ν :=
  { cache with slots := without cache.slots key }

def clear (cache : ExpiringCache κ ν) : ExpiringCache κ ν :=
  { cache with slots := [], order := [] }

/-- The number of stored entries, expired ones that were not read since included. -/
def size (cache : ExpiringCache κ ν) : Nat := cache.slots.length

def isEmpty (cache : ExpiringCache κ ν) : Bool := cache.size = 0

end ExpiringCache

end Mvcc
