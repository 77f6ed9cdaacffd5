import GoWarp.Core.Loading

/-!
# A Warp over any cache

`Warp` reaches its cache through an interface of three calls, and asks the
cache for a fourth one, `GetAt`, which only a versioned cache has.  A cache is
given here by the programs of these calls over a state of its own.  The
resilient wrapper turns the errors of a cache into misses and skipped writes.
It has the three calls only.

The operations of a Warp are then stated for any cache.
-/

namespace GoWarp.Core

open Support Support.Program

/-- `cache.Cache`, over a state `σ`.  What a call meets outside the cache, such
as the clock, is an argument of type `ω`. -/
structure CacheOps (ω V σ : Type) where
  get : ω → Key → Program σ Err (Option V)
  set : ω → Key → V → Duration → Program σ Err Unit
  invalidate : ω → Key → Program σ Err Unit

/-- A cache, which may have the `GetAt` of `versionedCache`. -/
structure AnyCache (ω V σ : Type) extends CacheOps ω V σ where
  getAt : Option (ω → Key → Instant → Program σ Err (Option V))

section Resilient

variable {ω V σ : Type}

namespace CacheOps

/-- `ResilientCache`: an error is a miss, or a write that is skipped. -/
def resilient (c : CacheOps ω V σ) : CacheOps ω V σ where
  get x k := tryCatch (c.get x k) fun _ => pure none
  set x k v ttl := tryCatch (c.set x k v ttl) fun _ => pure ()
  invalidate x k := tryCatch (c.invalidate x k) fun _ => pure ()

structure Faultless (c : CacheOps ω V σ) : Prop where
  get : ∀ x k, Succeeds (c.get x k)
  set : ∀ x k v ttl, Succeeds (c.set x k v ttl)
  invalidate : ∀ x k, Succeeds (c.invalidate x k)

theorem Faultless.resilient_eq {c : CacheOps ω V σ} (h : c.Faultless) : c.resilient = c := by
  have hget : c.resilient.get = c.get := funext₂ fun x k => (h.get x k).tryCatch _
  have hset : c.resilient.set = c.set := by
    funext x k v ttl
    exact (h.set x k v ttl).tryCatch _
  have hinvalidate : c.resilient.invalidate = c.invalidate :=
    funext₂ fun x k => (h.invalidate x k).tryCatch _
  calc c.resilient = ⟨c.resilient.get, c.resilient.set, c.resilient.invalidate⟩ :=
      rfl
    _ = c := by rw [hget, hset, hinvalidate]

end CacheOps

/-- `NewResilient`.  The wrapper has no `GetAt`. -/
def AnyCache.resilient (c : AnyCache ω V σ) : AnyCache ω V σ :=
  { c.toCacheOps.resilient with getAt := none }

end Resilient

/-! ## The Warp -/

/-- `Warp` with a cache whose state is in `σ`. -/
structure WarpOver (σ T : Type) where
  cache : σ
  store : Key → Option T
  storeKind : StoreKind
  hasBus : Bool
  merges : Engine T
  regs : Key → Option Registration
  traceEnabled : Bool
  hasLatencyHist : Bool
  spawned : List Task

/-- How the world answers during one operation, and what the calls of the cache
meet. -/
structure World (ω : Type) extends Env where
  meets : Call → ω

namespace WarpOver

open Warp (Reply autoRegistration isStale slidTTL)

variable {ω σ T : Type}

/-- A call of the cache. -/
def onCache {α : Type} (p : Program σ Err α) : Program (WarpOver σ T) Err α :=
  zoom WarpOver.cache (fun cache w => { w with cache := cache }) p

/-- `store.Get`. -/
def storeGet (w : WarpOver σ T) (env : Env) (k : Key) : Except Err (Option T) :=
  match env.fails (.storeGet k) with
  | some e => .error e
  | none => .ok (w.store k)

/-- The effect of `store.Set`. -/
def storeSet (w : WarpOver σ T) (k : Key) (data : T) : WarpOver σ T :=
  { w with store := Function.update w.store k (some data) }

/-- Record a TTL and an access time in the registration of a key. -/
def touch (w : WarpOver σ T) (k : Key) (ttl : Duration) (now : Instant) :
    WarpOver σ T :=
  { w with
    regs := Function.update w.regs k ((w.regs k).map fun r => r.touch ttl now) }

def spawn (w : WarpOver σ T) (task : Task) : WarpOver σ T :=
  { w with spawned := w.spawned ++ [task] }

/-- `Warp.Register`, and `Warp.RegisterDynamicTTL`, with the registration they
make: whether the key has been free. -/
def register (w : WarpOver σ T) (k : Key) (reg : Registration) : Bool × WarpOver σ T :=
  match w.regs k with
  | some _ => (false, w)
  | none => (true, { w with regs := Function.update w.regs k (some reg) })

section Operations

variable (c : CacheOps ω (Value T) σ) (world : World ω) (k : Key)

/-- `cache.Get`. -/
def cacheGet : Program (WarpOver σ T) Err (Option (Value T)) :=
  onCache (c.get (world.meets (.cacheGet k)) k)

/-- `cache.Set`. -/
def cacheSet (v : Value T) (ttl : Duration) : Program (WarpOver σ T) Err Unit :=
  onCache (c.set (world.meets (.cacheSet k)) k v ttl)

/-- `cache.Invalidate`. -/
def cacheInvalidate : Program (WarpOver σ T) Err Unit :=
  onCache (c.invalidate (world.meets (.cacheInvalidate k)) k)

/-- `cache.Set`, whose error is ignored. -/
def tryCacheSet (w : WarpOver σ T) (v : Value T) (ttl : Duration) :
    WarpOver σ T :=
  (exec (cacheSet c world k v ttl) w).2

/-! ### Writing -/

/-- The value a `Set` merges with: the cached one or, for a key with a merge
function of its own, the stored one. -/
def mergeBase : Program (WarpOver σ T) Err (Option (Value T)) := do
  match ← cacheGet c world k with
  | some old => pure (some old)
  | none =>
    let w ← MonadState.get
    if w.storeKind ≠ .absent ∧ w.merges.hasCustom k then
      let stored ← MonadExcept.ofExcept (w.storeGet world.toEnv k)
      pure (stored.map fun data => Value.written data zeroInstant)
    else
      pure none

/-- The local part of a `Set`: the cache first, then the store, then the
registration. -/
def applySet (reg : Registration) (newVal : Value T) : Program (WarpOver σ T) Err Unit := do
  let w ← MonadState.get
  cacheSet c world k newVal (world.effectiveTTL k reg)
  if w.storeKind ≠ .absent then
    perform (world.fails (.storeSet k)) fun w => w.storeSet k newVal.data
  modify fun w => w.touch k (world.ttl k reg) (world.clock (.operation k))

def set (value : T) : Program (WarpOver σ T) Err Unit := do
  let w ← MonadState.get
  match w.regs k with
  | none => throw .unregistered
  | some reg =>
    let old ← mergeBase c world k
    let newVal := w.merges.mergeOver k old (Value.written value (world.clock (.operation k)))
    match reg.mode with
    | .eventualDistributed =>
      applySet c world k reg newVal
      if w.hasBus ∧ world.busHealthy then
        modify fun w => w.spawn (.publish k)
    | .strongDistributed =>
      failOn (if w.hasBus then none else some .busRequired)
      if world.busHealthy then
        failOn (world.fails (.publishAndAwait k reg.quorumSize))
      applySet c world k reg newVal
    | .strongLocal => applySet c world k reg newVal

def invalidate : Program (WarpOver σ T) Err Unit := do
  let w ← MonadState.get
  match w.regs k with
  | none => throw .unregistered
  | some reg =>
    match reg.mode with
    | .eventualDistributed =>
      cacheInvalidate c world k
      if w.hasBus ∧ world.busHealthy then
        modify fun w => w.spawn (.publish k)
    | .strongDistributed =>
      failOn (if w.hasBus then none else some .busRequired)
      if world.busHealthy then
        failOn (world.fails (.publishAndAwait k reg.quorumSize))
      cacheInvalidate c world k
    | .strongLocal => cacheInvalidate c world k

/-! ### Reading -/

variable (w : WarpOver σ T) (reg : Registration)

/-- The condition under which a hit does nothing but return the value. -/
def plainHit : Bool :=
  !reg.ttlOpts.sliding && reg.ttlOpts.eagerRefresh.isNone &&
    decide (reg.ttlOpts.failSafeGracePeriod = 0) && !reg.hasStrategy &&
    !w.traceEnabled && !w.hasLatencyHist

/-- The registration and the cache after a store read answered `data`. -/
def fill (data : T) (ttl : Duration) : WarpOver σ T :=
  let mv := Value.written data (world.clock (.fetch k))
  (w.touch k ttl mv.timestamp).tryCacheSet c world k mv
    (wrap64 (ttl + reg.ttlOpts.failSafeGracePeriod))

/-- A hit on a stale value while there is a store. -/
def getStale (v : Value T) : Reply T × WarpOver σ T :=
  if 0 < reg.ttlOpts.softTimeout ∧ world.timedOut then
    (Reply.found v.data, w.spawn (.softFill k reg.currentTTL))
  else
    match w.storeGet world.toEnv k with
    | .error .notFound => (⟨some v.data, some .notFound⟩, w)
    | .error _ => (Reply.found v.data, w)
    | .ok none => (⟨some v.data, some .notFound⟩, w)
    | .ok (some data) =>
      let ttl := if reg.hasStrategy then world.strategyTTL k else reg.currentTTL
      (Reply.found data, w.fill c world k reg data ttl)

/-- Sliding expiration and frequency-based adjustment on a hit. -/
def slide (v : Value T) (now : Instant) : WarpOver σ T :=
  if reg.ttlOpts.sliding ∨ 0 < reg.ttlOpts.freqThreshold then
    let ttl := slidTTL reg (world.strategyTTL k) now
    (w.touch k ttl now).tryCacheSet c world k v (wrap64 (ttl + reg.ttlOpts.failSafeGracePeriod))
  else
    w

/-- A value is so close to its expiry that it is refreshed early. -/
def refreshDue (v : Value T) (now : Instant) : Bool :=
  match reg.ttlOpts.eagerRefresh with
  | none => false
  | some due =>
    decide (w.storeKind ≠ .absent) && decide (0 < reg.currentTTL) &&
      due (Instant.sub (v.timestamp + reg.currentTTL) now) reg.currentTTL

/-- Start a background refresh of a value that is about to expire. -/
def eager (v : Value T) (now : Instant) : WarpOver σ T :=
  match w.regs k with
  | none => w
  | some reg =>
    if w.refreshDue reg v now then w.spawn (.eagerRefresh k reg.currentTTL)
    else w

def getHit (v : Value T) : Reply T × WarpOver σ T :=
  if w.plainHit reg then
    (Reply.found v.data, w)
  else
    let now := world.clock (.operation k)
    if isStale reg v now ∧ w.storeKind ≠ .absent then
      w.getStale c world k reg v
    else
      (Reply.found v.data, (w.slide c world k reg v now).eager k v now)

/-- A miss: read the store and cache its answer. -/
def getMiss : Reply T × WarpOver σ T :=
  if w.storeKind = .absent then
    (Reply.failed .notFound, w)
  else
    match w.storeGet world.toEnv k with
    | .error e => (Reply.failed e, w)
    | .ok none => (Reply.failed .notFound, w)
    | .ok (some data) => (Reply.found data, w.fill c world k reg data (world.ttl k reg))

/-- `Warp.Get`.  A failing cache counts as a miss. -/
def get : Reply T × WarpOver σ T :=
  match w.regs k with
  | none => (Reply.failed .unregistered, w)
  | some reg =>
    match exec (cacheGet c world k) w with
    | (.ok (some v), w) => w.getHit c world k reg v
    | (_, w) => w.getMiss c world k reg

/-! ### GetOrSet -/

def ensureRegistered : WarpOver σ T := (w.register k autoRegistration).2

/-- The answer of the loader, and the worlds of the second cache lookup and of
the `Set` inside `GetOrSet`. -/
structure Loader (ω T : Type) where
  result : Except Err T
  recheck : World ω
  write : World ω

/-- `GetOrSet` on a stale value. -/
def loadStale (v : Value T) (loaded : Except Err T) : Reply T × WarpOver σ T :=
  if 0 < reg.ttlOpts.softTimeout ∧ world.timedOut then
    (Reply.found v.data, w.spawn (.softFill k reg.currentTTL))
  else
    match loaded with
    | .error _ => (Reply.found v.data, w)
    | .ok data =>
      let ttl := if reg.hasStrategy then world.strategyTTL k else reg.currentTTL
      (Reply.found data, w.fill c world k reg data ttl)

/-- `GetOrSet` on a hit. -/
def loadHit (v : Value T) (loaded : Except Err T) : Reply T × WarpOver σ T :=
  let now := world.clock (.operation k)
  if isStale reg v now then w.loadStale c world k reg v loaded
  else (Reply.found v.data, w.slide c world k reg v now)

/-- `GetOrSet` on a miss: look again, load, and write the value with `Set`,
whose error is not returned. -/
def loadMiss (loader : Loader ω T) : Reply T × WarpOver σ T :=
  match exec (cacheGet c loader.recheck k) w with
  | (.error e, w) => (Reply.failed e, w)
  | (.ok (some v), w) => (Reply.found v.data, w)
  | (.ok none, w) =>
    match loader.result with
    | .error e => (Reply.failed e, w)
    | .ok data =>
      (Reply.found data, (exec (set c loader.write k data)
        (w.touch k (world.ttl k reg) (world.clock (.fetch k)))).2)

/-- `GetOrSet` of a registered key. -/
def getOrLoad (loader : Loader ω T) : Reply T × WarpOver σ T :=
  match exec (cacheGet c world k) w with
  | (.error e, w) => (Reply.failed e, w)
  | (.ok (some v), w) => w.loadHit c world k reg v loader.result
  | (.ok none, w) => w.loadMiss c world k reg loader

def getOrSet (loader : Loader ω T) : Reply T × WarpOver σ T :=
  (w.ensureRegistered k).getOrLoad c world k ((w.regs k).getD autoRegistration) loader

/-! ### Warmup and goroutines -/

/-- `Warmup` at one key. -/
def warm : WarpOver σ T :=
  match w.regs k, w.storeGet world.toEnv k with
  | some reg, .ok (some data) =>
    w.fill c world k reg data (world.ttl k reg)
  | _, _ => w

/-- `Warp.Warmup`, over the keys whose answers arrive, in that order. -/
def warmup (keys : List Key) : WarpOver σ T :=
  if w.storeKind = .absent then w
  else keys.foldl (fun w k => w.warm c world k) w

/-- What a goroutine left behind by an operation does when its read is
answered by `fetched`. -/
def runTask (fetched : Option T) : Task → WarpOver σ T
  | .publish _ => w
  | .softFill k currentTTL =>
    match w.regs k, fetched with
    | some reg, some data =>
      let ttl := if reg.hasStrategy then world.strategyTTL k else currentTTL
      w.tryCacheSet c world k (Value.written data (world.clock (.fetch k)))
        (wrap64 (ttl + reg.ttlOpts.failSafeGracePeriod))
    | _, _ => w
  | .eagerRefresh k currentTTL =>
    match w.regs k, fetched with
    | some reg, some data =>
      let ttl := if reg.hasStrategy then world.strategyTTL k else currentTTL
      w.fill c world k reg data ttl
    | _, _ => w

/-- A goroutine that has been started runs, once. -/
def takeTask (task : Task) : WarpOver σ T := { w with spawned := w.spawned.erase task }

end Operations

/-! ### GetAt -/

/-- `Warp.GetAt`: only a cache that has the call can answer. -/
def getAt (c : AnyCache ω (Value T) σ) (world : World ω) (k : Key)
    (w : WarpOver σ T) (t : Instant) : Reply T × WarpOver σ T :=
  match w.regs k with
  | none => (Reply.failed .unregistered, w)
  | some _ =>
    match c.getAt with
    | none => (Reply.failed .notFound, w)
    | some getAt =>
      match exec (onCache (getAt (world.meets (.cacheGet k)) k t)) w with
      | (.error e, w) => (Reply.failed e, w)
      | (.ok (some v), w) => (Reply.found v.data, w)
      | (.ok none, w) => (Reply.failed .notFound, w)

end WarpOver

end GoWarp.Core
