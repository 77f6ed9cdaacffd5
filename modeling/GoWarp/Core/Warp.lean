import GoWarp.Core.Merge
import GoWarp.Support.Program
import Mathlib.Algebra.Order.Ring.Int

/-!
# The state of a Warp and the calls it makes

`Warp` ties a cache, a store, a sync bus and a merge engine together.  The
cache, the store and the bus are reached through calls that may fail.  An
`Env` says, for one operation, which of its calls fail and with what error,
what the clock reads, and how the TTL strategy and the bus answer.  Within
one operation every call is made at most once for each key, so that an
arbitrary `Env` is an arbitrary pattern of failures.  A call that fails
leaves its component unchanged.
-/

namespace GoWarp.Core

open Support

inductive Mode where
  | strongLocal
  | eventualDistributed
  | strongDistributed
deriving DecidableEq

/-- `cache.TTLOptions`.  `eagerRefresh` is `none` for a zero threshold, and
otherwise tells from the remaining and the current TTL whether their ratio is
within the threshold. -/
structure TTLOptions where
  sliding : Bool
  freqThreshold : Duration
  increment : Duration
  decrement : Duration
  minTTL : Duration
  maxTTL : Duration
  failSafeGracePeriod : Duration
  softTimeout : Duration
  eagerRefresh : Option (Duration → Duration → Bool)

/-- The zero `TTLOptions`. -/
def TTLOptions.zero : TTLOptions := ⟨false, 0, 0, 0, 0, 0, 0, 0, none⟩

/-- A sum of durations wraps around as `int64` does. -/
def wrap64 (d : ℤ) : Duration := Int.bmod d (2 ^ 64)

/-- `Time.Sub`, which saturates. -/
def Instant.sub (now last : Instant) : Duration := max (-2 ^ 63) (min (2 ^ 63 - 1) (now - last))

def TTLOptions.adjust (o : TTLOptions) (cur : Duration) (last now : Instant) :
    Duration :=
  if o.freqThreshold ≤ 0 then
    cur
  else if Instant.sub now last ≤ o.freqThreshold then
    let cur := wrap64 (cur + o.increment)
    if 0 < o.maxTTL ∧ o.maxTTL < cur then o.maxTTL else cur
  else
    let cur := wrap64 (cur - o.decrement)
    if cur < o.minTTL then o.minTTL else cur

/-- `registration`.  `hasStrategy` tells whether there is a TTL strategy. -/
structure Registration where
  ttl : Duration
  hasStrategy : Bool
  ttlOpts : TTLOptions
  mode : Mode
  currentTTL : Duration
  lastAccess : Instant
  quorum : ℤ

namespace Registration

/-- What `Register` stores for a key. -/
def new (mode : Mode) (ttl : Duration) (ttlOpts : TTLOptions) : Registration :=
  ⟨ttl, false, ttlOpts, mode, ttl, zeroInstant, 1⟩

def quorumSize (reg : Registration) : ℤ := if reg.quorum < 1 then 1 else reg.quorum

/-- Record a TTL and the time of an access. -/
def touch (reg : Registration) (ttl : Duration) (now : Instant) :
    Registration :=
  { reg with currentTTL := ttl, lastAccess := now }

end Registration

/-! ## Cache and store -/

/-- A cached value and the instant after which it has expired, if any. -/
structure CacheEntry (T : Type) where
  value : Value T
  expiresAt : Option Instant

/-- The value of an entry, unless it has expired. -/
def CacheEntry.live {T : Type} (entry : CacheEntry T) (now : Instant) : Option (Value T) :=
  match entry.expiresAt with
  | none => some entry.value
  | some expiresAt => if expiresAt < now then none else some entry.value

theorem CacheEntry.value_of_live {T : Type} {entry : CacheEntry T}
    {now : Instant} {v : Value T} (h : entry.live now = some v) :
    entry.value = v := by
  rw [live] at h
  split at h
  next => exact Option.some.inj h
  next => exact Option.some.inj (Option.ite_none_left_eq_some.mp h).2

theorem CacheEntry.live_of_le {T : Type} {entry : CacheEntry T}
    {t t' : Instant} (hle : t ≤ t') {v : Value T} (h : entry.live t' = some v) :
    entry.live t = some v := by
  rw [live] at h ⊢
  split at h
  next => exact h
  next expiresAt _ =>
    split at h
    · cases h
    next hexp =>
      rw [if_neg fun hlt => hexp (Int.lt_of_lt_of_le hlt hle)]
      exact h

/-- The contents of a cache without capacity bounds. -/
abbrev Cache (T : Type) := Key → Option (CacheEntry T)

namespace Cache

variable {T : Type}

/-- `Cache.Get` at an instant. -/
def get (c : Cache T) (now : Instant) (k : Key) : Option (Value T) :=
  (c k).bind fun entry => entry.live now

/-- The entry `Cache.Set` creates; a non-positive TTL means no expiry. -/
def newEntry (now : Instant) (v : Value T) (ttl : Duration) : CacheEntry T :=
  ⟨v, if 0 < ttl then some (now + ttl) else none⟩

/-- `Cache.Set` at an instant. -/
def set (c : Cache T) (now : Instant) (k : Key) (v : Value T) (ttl : Duration) : Cache T :=
  Function.update c k (some (newEntry now v ttl))

def invalidate (c : Cache T) (k : Key) : Cache T := Function.update c k none

@[simp] theorem get_set_self (c : Cache T) (t now : Instant) (k : Key)
    (v : Value T) (ttl : Duration) :
    (c.set now k v ttl).get t k = (newEntry now v ttl).live t := by
  simp [get, set]

theorem get_set_of_ne (c : Cache T) (t now : Instant) {k k' : Key}
    (h : k' ≠ k) (v : Value T) (ttl : Duration) :
    (c.set now k v ttl).get t k' = c.get t k' := by
  simp [get, set, Function.update_of_ne h]

@[simp] theorem get_invalidate_self (c : Cache T) (t : Instant) (k : Key) :
    (c.invalidate k).get t k = none := by
  simp [get, invalidate]

theorem get_invalidate_of_ne (c : Cache T) (t : Instant) {k k' : Key}
    (h : k' ≠ k) : (c.invalidate k).get t k' = c.get t k' := by
  simp [get, invalidate, Function.update_of_ne h]

theorem get_of_le {c : Cache T} {t t' : Instant} (hle : t ≤ t')
    {k : Key} {v : Value T} (h : c.get t' k = some v) :
    c.get t k = some v := by
  obtain ⟨entry, hentry, hlive⟩ := Option.bind_eq_some_iff.mp h
  exact Option.bind_eq_some_iff.mpr ⟨entry, hentry, entry.live_of_le hle hlive⟩

theorem live_newEntry (t : Instant) (v : Value T) (ttl : Duration) :
    (newEntry t v ttl).live t = some v := by
  by_cases hpos : 0 < ttl
  · have hexp : ¬ t + ttl < t := Int.not_lt.mpr (Int.le_add_of_nonneg_right (Int.le_of_lt hpos))
    rw [newEntry, if_pos hpos, CacheEntry.live]
    exact if_neg hexp
  · rw [newEntry, if_neg hpos, CacheEntry.live]

theorem live_newEntry_iff {d : Duration} (hd : 0 < d) (v : Value T) (cachedAt now : Instant) :
    (newEntry cachedAt v d).live now = some v ↔ now ≤ cachedAt + d := by
  rw [newEntry, if_pos hd, CacheEntry.live]
  dsimp only
  split
  · rename_i hlt
    exact ⟨fun h => (nomatch h), fun h => absurd hlt (Int.not_lt.mpr h)⟩
  · rename_i hlt
    exact ⟨fun _ => Int.not_lt.mp hlt, fun _ => rfl⟩

end Cache

/-- Whether there is a store, and whether it supports batches. -/
inductive StoreKind where
  | absent
  | plain
  | batcher
deriving DecidableEq

/-- The goroutines an operation leaves behind. -/
inductive Task where
  /-- publish an invalidation of the key -/
  | publish (k : Key)
  /-- cache the answer of a store read that outlasted the soft timeout -/
  | softFill (k : Key) (currentTTL : Duration)
  /-- refresh an entry that is about to expire -/
  | eagerRefresh (k : Key) (currentTTL : Duration)
deriving DecidableEq

/-- `Warp`.  The sharded registration table is one map; `spawned` lists the
goroutines started so far. -/
structure Warp (T : Type) where
  cache : Cache T
  store : Key → Option T
  storeKind : StoreKind
  hasBus : Bool
  merges : Engine T
  regs : Key → Option Registration
  resilient : Bool
  traceEnabled : Bool
  hasLatencyHist : Bool
  spawned : List Task

/-! ## Calls and their failures -/

/-- The errors an operation returns; `component` is an error of the cache, the
store, the batch or the bus. -/
inductive Err where
  | notFound
  | unregistered
  | casMismatch
  | busRequired
  | component (code : ℕ)
deriving DecidableEq

inductive Call where
  | cacheGet (k : Key)
  | cacheSet (k : Key)
  | cacheInvalidate (k : Key)
  | storeGet (k : Key)
  | storeSet (k : Key)
  | batchOpen
  | batchSet (k : Key)
  | batchDelete (k : Key)
  | batchCommit
  | publish (k : Key)
  | publishAndAwait (k : Key) (quorum : ℤ)
deriving DecidableEq

/-- A reading of the clock: by an operation on a key, after a store read, or
inside a call. -/
inductive Reading where
  | operation (k : Key)
  | fetch (k : Key)
  | call (c : Call)
deriving DecidableEq

/-- How the world answers during one operation. -/
structure Env where
  fails : Call → Option Err
  clock : Reading → Instant
  strategyTTL : Key → Duration
  busHealthy : Bool
  /-- whether a soft timeout elapses before the store answers -/
  timedOut : Bool

namespace Env

/-- A world in which no call fails and the clock stands still. -/
def still (now : Instant) : Env where
  fails := fun _ => none
  clock := fun _ => now
  strategyTTL := fun _ => 0
  busHealthy := true
  timedOut := false

/-- The TTL of a write: the one of the strategy, if there is one. -/
def ttl (env : Env) (k : Key) (reg : Registration) : Duration :=
  if reg.hasStrategy then env.strategyTTL k else reg.ttl

/-- The TTL passed to the cache, extended by the grace period. -/
def effectiveTTL (env : Env) (k : Key) (reg : Registration) : Duration :=
  wrap64 (env.ttl k reg + reg.ttlOpts.failSafeGracePeriod)

end Env

namespace Warp

variable {T : Type}

/-- `cache.Get`; the resilient wrapper turns a failure into a miss. -/
def cacheGet (w : Warp T) (env : Env) (k : Key) : Except Err (Option (Value T)) :=
  match env.fails (.cacheGet k) with
  | some e => if w.resilient then .ok none else .error e
  | none => .ok (w.cache.get (env.clock (.call (.cacheGet k))) k)

/-- The error of a cache write; the resilient wrapper suppresses it. -/
def cacheFault (w : Warp T) (env : Env) (c : Call) : Option Err :=
  if w.resilient then none else env.fails c

/-- The effect of `cache.Set`, none when the call fails. -/
def cacheSet (w : Warp T) (env : Env) (k : Key) (v : Value T) (ttl : Duration) : Warp T :=
  match env.fails (.cacheSet k) with
  | some _ => w
  | none => { w with cache := w.cache.set (env.clock (.call (.cacheSet k))) k v ttl }

/-- The effect of `cache.Invalidate`, none when the call fails. -/
def cacheInvalidate (w : Warp T) (env : Env) (k : Key) : Warp T :=
  match env.fails (.cacheInvalidate k) with
  | some _ => w
  | none => { w with cache := w.cache.invalidate k }

/-- `store.Get`. -/
def storeGet (w : Warp T) (env : Env) (k : Key) : Except Err (Option T) :=
  match env.fails (.storeGet k) with
  | some e => .error e
  | none => .ok (w.store k)

/-- The effect of `store.Set`. -/
def storeSet (w : Warp T) (k : Key) (data : T) : Warp T :=
  { w with store := Function.update w.store k (some data) }

/-- Record a TTL and an access time in the registration of a key. -/
def touch (w : Warp T) (k : Key) (ttl : Duration) (now : Instant) : Warp T :=
  { w with
    regs := Function.update w.regs k ((w.regs k).map fun r => r.touch ttl now) }

def spawn (w : Warp T) (task : Task) : Warp T := { w with spawned := w.spawned ++ [task] }

/-- A Warp without a store and a bus, with nothing cached and one registration
for every key. -/
def uniform (reg : Registration) : Warp T where
  cache := fun _ => none
  store := fun _ => none
  storeKind := .absent
  hasBus := false
  merges := fun _ => none
  regs := fun _ => some reg
  resilient := false
  traceEnabled := false
  hasLatencyHist := false
  spawned := []

end Warp

end GoWarp.Core
