import GoWarp.Core.Warp

/-!
# Get, Set and Invalidate

The operations on one key, as programs over the state of a Warp.  Reads never
fail as programs: their error is part of their reply.
-/

namespace GoWarp.Core

open Support Support.Program

namespace Warp

variable {T : Type}

/-- The value a `Set` merges with: the cached one or, for a key with a merge
function of its own, the stored one. -/
def mergeBase (w : Warp T) (env : Env) (k : Key) : Except Err (Option (Value T)) :=
  match w.cacheGet env k with
  | .error e => .error e
  | .ok (some old) => .ok (some old)
  | .ok none =>
    if w.storeKind ≠ .absent ∧ w.merges.hasCustom k then
      match w.storeGet env k with
      | .error e => .error e
      | .ok stored =>
        .ok (stored.map fun data => Value.written data zeroInstant)
    else
      .ok none

/-- The local part of a `Set`: the cache first, then the store, then the
registration. -/
def applySet (env : Env) (k : Key) (reg : Registration) (newVal : Value T) :
    Program (Warp T) Err Unit := do
  let w ← MonadState.get
  perform (w.cacheFault env (.cacheSet k)) fun w => w.cacheSet env k newVal (env.effectiveTTL k reg)
  if w.storeKind ≠ .absent then
    perform (env.fails (.storeSet k)) fun w => w.storeSet k newVal.data
  modify fun w => w.touch k (env.ttl k reg) (env.clock (.operation k))

def set (env : Env) (k : Key) (value : T) : Program (Warp T) Err Unit := do
  let w ← MonadState.get
  match w.regs k with
  | none => throw .unregistered
  | some reg =>
    let old ← MonadExcept.ofExcept (w.mergeBase env k)
    let newVal := w.merges.mergeOver k old (Value.written value (env.clock (.operation k)))
    match reg.mode with
    | .eventualDistributed =>
      applySet env k reg newVal
      if w.hasBus ∧ env.busHealthy then
        modify fun w => w.spawn (.publish k)
    | .strongDistributed =>
      failOn (if w.hasBus then none else some .busRequired)
      if env.busHealthy then
        failOn (env.fails (.publishAndAwait k reg.quorumSize))
      applySet env k reg newVal
    | .strongLocal => applySet env k reg newVal

def invalidate (env : Env) (k : Key) : Program (Warp T) Err Unit := do
  let w ← MonadState.get
  let applyLocal := perform (w.cacheFault env (.cacheInvalidate k))
    fun w : Warp T => w.cacheInvalidate env k
  match w.regs k with
  | none => throw .unregistered
  | some reg =>
    match reg.mode with
    | .eventualDistributed =>
      applyLocal
      if w.hasBus ∧ env.busHealthy then
        modify fun w => w.spawn (.publish k)
    | .strongDistributed =>
      failOn (if w.hasBus then none else some .busRequired)
      if env.busHealthy then
        failOn (env.fails (.publishAndAwait k reg.quorumSize))
      applyLocal
    | .strongLocal => applyLocal

/-! ## Reading -/

/-- What `Get` returns: a value, `none` for the zero value, and an error.  A
stale value that the store no longer has comes back with an error. -/
structure Reply (T : Type) where
  value : Option T
  err : Option Err
deriving DecidableEq

namespace Reply

def found (v : T) : Reply T := ⟨some v, none⟩

def failed (e : Err) : Reply T := ⟨none, some e⟩

end Reply

/-- The condition under which a hit does nothing but return the value. -/
def plainHit (w : Warp T) (reg : Registration) : Bool :=
  !reg.ttlOpts.sliding && reg.ttlOpts.eagerRefresh.isNone &&
    decide (reg.ttlOpts.failSafeGracePeriod = 0) && !reg.hasStrategy &&
    !w.traceEnabled && !w.hasLatencyHist

/-- A hit is logically expired: older than the current TTL while a grace
period keeps it in the cache. -/
def isStale (reg : Registration) (v : Value T) (now : Instant) : Bool :=
  decide (0 < reg.ttlOpts.failSafeGracePeriod ∧ v.timestamp + reg.currentTTL < now)

/-- The registration and the cache after a store read answered `data`. -/
def fill (w : Warp T) (env : Env) (k : Key) (data : T) (ttl : Duration)
    (reg : Registration) : Warp T :=
  let mv := Value.written data (env.clock (.fetch k))
  (w.touch k ttl mv.timestamp).cacheSet env k mv (wrap64 (ttl + reg.ttlOpts.failSafeGracePeriod))

/-- A hit on a stale value while there is a store: refresh it from the store,
and fall back on it when the store fails or is too slow. -/
def getStale (w : Warp T) (env : Env) (k : Key) (reg : Registration)
    (v : Value T) : Reply T × Warp T :=
  if 0 < reg.ttlOpts.softTimeout ∧ env.timedOut then
    (Reply.found v.data, w.spawn (.softFill k reg.currentTTL))
  else
    match w.storeGet env k with
    | .error .notFound => (⟨some v.data, some .notFound⟩, w)
    | .error _ => (Reply.found v.data, w)
    | .ok none => (⟨some v.data, some .notFound⟩, w)
    | .ok (some data) =>
      let ttl := if reg.hasStrategy then env.strategyTTL k else reg.currentTTL
      (Reply.found data, w.fill env k data ttl reg)

/-- The TTL a hit extends the value by, when the TTL strategy, if there is
one, answers `d`. -/
def slidTTL (reg : Registration) (d : Duration) (now : Instant) : Duration :=
  if reg.hasStrategy then
    if 0 < reg.ttlOpts.freqThreshold then
      reg.ttlOpts.adjust d reg.lastAccess now
    else
      d
  else
    reg.ttlOpts.adjust reg.currentTTL reg.lastAccess now

/-- Sliding expiration and frequency-based adjustment on a hit. -/
def slide (w : Warp T) (env : Env) (k : Key) (reg : Registration)
    (v : Value T) (now : Instant) : Warp T :=
  if reg.ttlOpts.sliding ∨ 0 < reg.ttlOpts.freqThreshold then
    let ttl := slidTTL reg (env.strategyTTL k) now
    (w.touch k ttl now).cacheSet env k v (wrap64 (ttl + reg.ttlOpts.failSafeGracePeriod))
  else
    w

/-- A value is so close to its expiry that it is refreshed early. -/
def refreshDue (w : Warp T) (reg : Registration) (v : Value T) (now : Instant) : Bool :=
  match reg.ttlOpts.eagerRefresh with
  | none => false
  | some due =>
    decide (w.storeKind ≠ .absent) && decide (0 < reg.currentTTL) &&
      due (Instant.sub (v.timestamp + reg.currentTTL) now) reg.currentTTL

/-- Start a background refresh of a value that is about to expire. -/
def eager (w : Warp T) (k : Key) (v : Value T) (now : Instant) : Warp T :=
  match w.regs k with
  | none => w
  | some reg =>
    if w.refreshDue reg v now then w.spawn (.eagerRefresh k reg.currentTTL)
    else w

def getHit (w : Warp T) (env : Env) (k : Key) (reg : Registration)
    (v : Value T) : Reply T × Warp T :=
  if w.plainHit reg then
    (Reply.found v.data, w)
  else
    let now := env.clock (.operation k)
    if isStale reg v now ∧ w.storeKind ≠ .absent then
      w.getStale env k reg v
    else
      (Reply.found v.data, (w.slide env k reg v now).eager k v now)

/-- A miss: read the store and cache its answer. -/
def getMiss (w : Warp T) (env : Env) (k : Key) (reg : Registration) : Reply T × Warp T :=
  if w.storeKind = .absent then
    (Reply.failed .notFound, w)
  else
    match w.storeGet env k with
    | .error e => (Reply.failed e, w)
    | .ok none => (Reply.failed .notFound, w)
    | .ok (some data) => (Reply.found data, w.fill env k data (env.ttl k reg) reg)

/-- `Warp.Get`.  A failing cache counts as a miss. -/
def get (w : Warp T) (env : Env) (k : Key) : Reply T × Warp T :=
  match w.regs k with
  | none => (Reply.failed .unregistered, w)
  | some reg =>
    match w.cacheGet env k with
    | .ok (some v) => w.getHit env k reg v
    | _ => w.getMiss env k reg

end Warp

end GoWarp.Core
