import GoWarp.Support.LinkedList
import GoWarp.Support.Transition
import Mathlib.Data.List.AList

/-!
# The in-memory cache

`InMemoryCache` keeps its entries in a map, the keys in a linked list from the
most to the least recently used one, and the sum of the sizes of the entries
in a counter.  `Get`, `Set`, `Invalidate`, the sweeper and `Close` update the
three separately.  Sizes and the counter are 64-bit integers, so the counter
may overflow.

Each operation runs under the mutex of the cache and is one step.  The
counters of hits and misses are kept; the Prometheus metrics and the traces
are left out.
-/

namespace GoWarp.Cache

open Support

abbrev Key := String

/-- Nanoseconds since the zero `time.Time`. -/
abbrev Instant := ℕ

/-- Nanoseconds. -/
abbrev Duration := ℤ

/-- `item`.  An item without expiry has the zero time. -/
structure Item (T : Type) where
  value : T
  size : Int64
  expiresAt : Instant
  element : ℕ

/-- `InMemoryCache`; `closed` says that its context is done. -/
structure InMemoryCache (T : Type) where
  items : AList fun _ : Key => Item T
  order : LinkedList Key
  hits : UInt64
  misses : UInt64
  maxEntries : ℤ
  maxMemory : Int64
  currentMemory : Int64
  closed : Bool

/-- Whether the context of a call is done when the call begins, and when the
call looks at it once more. -/
structure Ctx where
  early : Bool
  late : Bool
deriving DecidableEq

inductive Reply (T : Type) where
  | found (value : T)
  | missing
  | done
  | canceled
deriving DecidableEq

variable {T : Type}

/-- The entry is past its expiry. -/
def Item.expired (it : Item T) (now : Instant) : Bool := it.expiresAt ≠ 0 ∧ it.expiresAt < now

namespace InMemoryCache

/-- `NewInMemory`. -/
def new (maxEntries : ℤ) (maxMemory : Int64) : InMemoryCache T where
  items := ∅
  order := LinkedList.new
  hits := 0
  misses := 0
  maxEntries := maxEntries
  maxMemory := maxMemory
  currentMemory := 0
  closed := false

/-- Remove an item: its element, its entry in the map and its size. -/
def drop (c : InMemoryCache T) (key : Key) (it : Item T) : InMemoryCache T :=
  { c with
    order := c.order.remove it.element
    items := c.items.erase key
    currentMemory := c.currentMemory + -it.size }

def get (c : InMemoryCache T) (ctx : Ctx) (now : Instant) (key : Key) : Reply T × InMemoryCache T :=
  if ctx.early then (.canceled, c)
  else
    match c.items.lookup key with
    | none => (.missing, { c with misses := c.misses + 1 })
    | some it =>
      if it.expired now then
        (.missing, { c.drop key it with misses := c.misses + 1 })
      else
        let c' := { c with order := c.order.moveToFront it.element }
        if ctx.late then (.canceled, c')
        else (.found it.value, { c' with hits := c'.hits + 1 })

/-- Put an entry into the map and at the front of the list. -/
def store (c : InMemoryCache T) (key : Key) (value : T) (size : Int64)
    (exp : Instant) : InMemoryCache T :=
  match c.items.lookup key with
  | some it =>
    { c with
      currentMemory := c.currentMemory + (size - it.size)
      items := c.items.insert key ⟨value, size, exp, it.element⟩
      order := c.order.moveToFront it.element }
  | none =>
    { c with
      currentMemory := c.currentMemory + size
      items := c.items.insert key ⟨value, size, exp, c.order.next⟩
      order := c.order.pushFront key }

/-- Remove the last element of the list and its item. -/
def evict (c : InMemoryCache T) (tail : ℕ × Key) : InMemoryCache T :=
  match c.items.lookup tail.2 with
  | some it =>
    { c with
      order := c.order.remove tail.1
      currentMemory := c.currentMemory + -it.size
      items := c.items.erase tail.2 }
  | none => { c with order := c.order.remove tail.1 }

/-- Enforce `maxEntries`. -/
def enforceMaxEntries (c : InMemoryCache T) : InMemoryCache T :=
  if 0 < c.maxEntries ∧ c.maxEntries < c.items.entries.length then
    match c.order.back with
    | some tail => c.evict tail
    | none => c
  else
    c

/-- The loop that enforces `maxMemory`, for at most `fuel` rounds. -/
def evictLoop : ℕ → InMemoryCache T → InMemoryCache T
  | 0, c => c
  | fuel + 1, c =>
    if c.maxMemory < c.currentMemory then
      match c.order.back with
      | some tail => evictLoop fuel (c.evict tail)
      | none => c
    else
      c

/-- Enforce `maxMemory`.  Each round removes an element of the list. -/
def enforceMaxMemory (c : InMemoryCache T) : InMemoryCache T :=
  if 0 < c.maxMemory then evictLoop c.order.elems.length c else c

/-- When an entry that is set now expires. -/
def expiry (now : Instant) (ttl : Duration) : Instant := if 0 < ttl then now + ttl.toNat else 0

/-- `Set`; `size` is `EstimateSize`. -/
def set (size : T → Int64) (c : InMemoryCache T) (ctx : Ctx) (now : Instant)
    (key : Key) (value : T) (ttl : Duration) : Reply T × InMemoryCache T :=
  if ctx.early ∨ ctx.late then (.canceled, c)
  else
    (.done, ((c.store key value (size value) (expiry now ttl)).enforceMaxEntries).enforceMaxMemory)

def invalidate (c : InMemoryCache T) (ctx : Ctx) (key : Key) : Reply T × InMemoryCache T :=
  if ctx.early ∨ ctx.late then (.canceled, c)
  else
    match c.items.lookup key with
    | some it => (.done, c.drop key it)
    | none => (.done, c)

/-- The sweeper looks at an item. -/
def inspect (now : Instant) (c : InMemoryCache T) (key : Key) :
    InMemoryCache T :=
  match c.items.lookup key with
  | some it => if it.expired now then c.drop key it else c
  | none => c

def sampleSize : ℕ := 20

/-- What one pass of the sweeper may look at: the first items in an order of
the map, which differs from pass to pass. -/
def IsSample (c : InMemoryCache T) (sample : List Key) : Prop :=
  sample.Nodup ∧ (∀ key ∈ sample, key ∈ c.items) ∧
    sample.length = min sampleSize c.items.entries.length

instance (c : InMemoryCache T) (sample : List Key) : Decidable (c.IsSample sample) :=
  inferInstanceAs (Decidable (_ ∧ _ ∧ _))

/-- One pass of the sweeper. -/
def sweep (c : InMemoryCache T) (now : Instant) (sample : List Key) :
    InMemoryCache T :=
  sample.foldl (inspect now) c

def close (c : InMemoryCache T) : InMemoryCache T :=
  { c with
    items := ∅
    order := c.order.clear
    closed := true }

def getCurrentMemory (c : InMemoryCache T) : Int64 := c.currentMemory

end InMemoryCache

/-! ## Runs -/

/-- An operation, with what the clock reads. -/
inductive Action (T : Type) where
  | get (ctx : Ctx) (now : Instant) (key : Key)
  | set (ctx : Ctx) (now : Instant) (key : Key) (value : T) (ttl : Duration)
  | invalidate (ctx : Ctx) (key : Key)
  | sweep (now : Instant) (sample : List Key)
  | close

namespace InMemoryCache

variable (size : T → Int64)

/-- The sweeper stops when the cache is closed. -/
def step : Machine (InMemoryCache T) (Action T)
  | c, .get ctx now key => some (c.get ctx now key).2
  | c, .set ctx now key value ttl => some (c.set size ctx now key value ttl).2
  | c, .invalidate ctx key => some (c.invalidate ctx key).2
  | c, .sweep now sample =>
    if c.closed = false ∧ c.IsSample sample then some (c.sweep now sample)
    else none
  | c, .close => some c.close

/-- The reply of an operation that has one. -/
def reply (c : InMemoryCache T) : Action T → Option (Reply T)
  | .get ctx now key => some (c.get ctx now key).1
  | .set ctx now key value ttl => some (c.set size ctx now key value ttl).1
  | .invalidate ctx key => some (c.invalidate ctx key).1
  | _ => none

end InMemoryCache

end GoWarp.Cache
