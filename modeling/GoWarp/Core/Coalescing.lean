import GoWarp.Core.Loading

/-!
# Coalesced fetches

`Get` and `GetOrSet` fetch a value through a singleflight group with one
flight per key: a caller that arrives while a flight is under way waits for
its result.  What the flight does depends on the caller that has started it.
A `Get` looks the key up in the store, with its own context after a miss and
with a detached one when it has a stale value.  A `GetOrSet` calls its loader
with its own context; after a miss it looks at the cache once more before, and
writes the value with `Set` afterwards.

Any number of callers and background goroutines work on one key and take turns
at the steps below.  Calls of the cache fail only when their context is done;
a store and a loader may fail at any time, and with the error of a context
that is done.  The `Set` of a loaded value is one step.
-/

namespace GoWarp.Core.Coalescing

open Support Support.Program

variable {T : Type}

inductive Method where
  | get
  | getOrSet
deriving DecidableEq

inductive Origin where
  | cache
  | store
  | loader
deriving DecidableEq

/-- The errors a caller may see: `ErrUnregistered`, the `ErrNotFound` of a
lookup, an error of the store or of a loader, and the error of the context of
caller `i` as the cache or the store, or as a loader reports it. -/
inductive Fault where
  | unregistered
  | notFound
  | store (e : Err)
  | loader (e : Err)
  | context (i : ℕ)
  | loaderContext (i : ℕ)
deriving DecidableEq

/-- `errors.Is(err, ErrNotFound)`. -/
def Fault.isNotFound : Fault → Bool
  | .notFound => true
  | .store e => decide (e = .notFound)
  | .loader e => decide (e = .notFound)
  | _ => false

/-- What a call returns; a `Get` may return a value together with an error. -/
structure Reply (T : Type) where
  value : Option (Origin × T)
  err : Option Fault
deriving DecidableEq

def Reply.found (origin : Origin) (v : T) : Reply T := ⟨some (origin, v), none⟩

def Reply.failed (e : Fault) : Reply T := ⟨none, some e⟩

/-- Why a thread fetches: a call that missed or has found a stale value, the
goroutine that a soft timeout leaves behind, or a background refresh. -/
inductive Reason (T : Type) where
  | miss (m : Method)
  | stale (m : Method) (v : Value T) (currentTTL : Duration)
  | soft (currentTTL : Duration)
  | eager (currentTTL : Duration)

abbrev Outcome (T : Type) := Except Fault (Origin × Value T)

inductive Phase (T : Type) where
  | idle
  /-- before `cache.Get` -/
  | called (m : Method)
  /-- with a cached value, before it reads the clock -/
  | hit (m : Method) (v : Value T)
  | joining (r : Reason T)
  | waiting (r : Reason T)
  /-- with the result of a flight -/
  | delivered (r : Reason T) (o : Outcome T)
  | returned (m : Method) (reply : Reply T)
  /-- the end of a goroutine -/
  | finished

/-! ## Flights -/

/-- What a flight does next: look the key up in the store, look at the cache,
call the loader, write the value it has returned, or end. -/
inductive Job (T : Type) where
  | lookup (detached : Bool)
  | check
  | load (write : Bool)
  | write (mv : Value T)
  | done (o : Outcome T)

/-- A flight, the thread that has started it, and why. -/
structure Flight (T : Type) where
  starter : ℕ
  reason : Reason T
  job : Job T

/-- How the flight of a thread begins. -/
def Reason.job : Reason T → Job T
  | .miss .get => .lookup false
  | .miss .getOrSet => .check
  | .stale .get _ _ => .lookup true
  | .stale .getOrSet _ _ => .load false
  | .soft _ => .lookup true
  | .eager _ => .lookup false

/-- The Warp, the flight of the key, the threads, and whose context is
done. -/
structure Callers (T : Type) where
  warp : Warp T
  flight : Option (Flight T)
  threads : ℕ → Phase T
  canceled : ℕ → Bool

/-- How the store answers a lookup: with what it has, with an error, or with
the error of the context. -/
inductive StoreAnswer where
  | content
  | error (e : Err)
  | context

inductive LoaderAnswer (T : Type) where
  | value (v : T)
  | error (e : Err)
  | context

/-- A step; `j` is the goroutine that it starts, if it starts one. -/
inductive Action (T : Type) where
  | call (i : ℕ) (m : Method)
  | cancel (i : ℕ)
  | cacheGet (i : ℕ) (env : Env)
  | inspect (i j : ℕ) (env : Env)
  | join (i : ℕ)
  | lookup (a : StoreAnswer) (env : Env)
  | check (env : Env)
  | load (a : LoaderAnswer T) (env : Env)
  | write (env : Env)
  | finish
  | softTimeout (i j : ℕ)
  | receive (i : ℕ) (env : Env)

namespace Callers

variable (k : Key) (s : Callers T)

def goto (i : ℕ) (ph : Phase T) : Callers T := { s with threads := Function.update s.threads i ph }

def onWarp (f : Warp T → Warp T) : Callers T := { s with warp := f s.warp }

/-- `cache.Get` with the context of a thread; the resilient wrapper turns a
failure into a miss. -/
def cacheGet (i : ℕ) (env : Env) : Except Fault (Option (Value T)) :=
  if s.canceled i then
    if s.warp.resilient then .ok none else .error (.context i)
  else
    .ok (s.warp.cache.get (env.clock (.call (.cacheGet k))) k)

/-! ## Steps of the callers -/

def callStep (i : ℕ) (m : Method) : Option (Callers T) :=
  match s.threads i with
  | .idle => some (s.goto i (.called m))
  | _ => none

/-- A context is done.  The one of a background refresh has no end but the
soft timeout of its lookup. -/
def cancelStep (i : ℕ) : Option (Callers T) :=
  let canceled := { s with canceled := Function.update s.canceled i true }
  match s.threads i, s.warp.regs k with
  | .joining (.eager _), _ => none
  | .waiting (.eager _), some reg =>
    if 0 < reg.ttlOpts.softTimeout then some canceled else none
  | _, _ => some canceled

/-- `Get` up to its `cache.Get`. -/
def beginGet (i : ℕ) (env : Env) : Callers T :=
  match s.warp.regs k with
  | none => s.goto i (.returned .get (.failed .unregistered))
  | some reg =>
    match s.cacheGet k i env with
    | .ok (some v) =>
      if s.warp.plainHit reg then
        s.goto i (.returned .get (.found .cache v.data))
      else
        s.goto i (.hit .get v)
    | _ =>
      if s.warp.storeKind = .absent then
        s.goto i (.returned .get (.failed .notFound))
      else
        s.goto i (.joining (.miss .get))

/-- `GetOrSet` up to its `cache.Get`. -/
def beginGetOrSet (i : ℕ) (env : Env) : Callers T :=
  let s := s.onWarp fun w => w.ensureRegistered k
  match s.cacheGet k i env with
  | .error e => s.goto i (.returned .getOrSet (.failed e))
  | .ok (some v) => s.goto i (.hit .getOrSet v)
  | .ok none => s.goto i (.joining (.miss .getOrSet))

def cacheGetStep (i : ℕ) (env : Env) : Option (Callers T) :=
  match s.threads i with
  | .called .get => some (s.beginGet k i env)
  | .called .getOrSet => some (s.beginGetOrSet k i env)
  | _ => none

/-- A hit: return the value, unless it is stale and there is a source to
refresh it from.  A `Get` may start a background refresh. -/
def inspectStep (i j : ℕ) (env : Env) : Option (Callers T) :=
  let now := env.clock (.operation k)
  match s.threads i, s.warp.regs k with
  | .hit m v, some reg =>
    if Warp.isStale reg v now ∧ (m = .get → s.warp.storeKind ≠ .absent) then
      some (s.goto i (.joining (.stale m v reg.currentTTL)))
    else
      let s' := (s.onWarp fun w => w.slide env k reg v now).goto i
        (.returned m (.found .cache v.data))
      match m, s'.threads j, s'.warp.regs k with
      | .get, .idle, some reg' =>
        if s'.canceled j then
          none
        else if s'.warp.refreshDue reg' v now then
          some (s'.goto j (.joining (.eager reg'.currentTTL)))
        else
          some s'
      | .getOrSet, _, _ => some s'
      | _, _, _ => none
  | _, _ => none

/-- Join the flight under way, or start one. -/
def joinStep (i : ℕ) : Option (Callers T) :=
  match s.threads i with
  | .joining r =>
    some { s.goto i (.waiting r) with
      flight := some (s.flight.getD ⟨i, r, r.job⟩) }
  | _ => none

/-- The soft timeout of a call elapses: it returns the stale value and leaves
a goroutine behind. -/
def softTimeoutStep (i j : ℕ) : Option (Callers T) :=
  match s.threads i, s.threads j, s.warp.regs k with
  | .waiting (.stale m v ttl), .idle, some reg =>
    if 0 < reg.ttlOpts.softTimeout then
      some ((s.goto i (.returned m (.found .cache v.data))).goto j (.waiting (.soft ttl)))
    else
      none
  | .delivered (.stale m v ttl) o, .idle, some reg =>
    if 0 < reg.ttlOpts.softTimeout then
      some ((s.goto i (.returned m (.found .cache v.data))).goto j (.delivered (.soft ttl) o))
    else
      none
  | _, _, _ => none

def chosenTTL (reg : Registration) (env : Env) (otherwise : Duration) :
    Duration :=
  if reg.hasStrategy then env.strategyTTL k else otherwise

/-- Record the TTL of a fetched value and cache the value. -/
def fill (env : Env) (reg : Registration) (mv : Value T) (ttl : Duration) :
    Callers T :=
  s.onWarp fun w => (w.touch k ttl mv.timestamp).cacheSet env k mv
    (wrap64 (ttl + reg.ttlOpts.failSafeGracePeriod))

/-- What a thread does with an error. -/
def receiveFault (i : ℕ) (e : Fault) : Reason T → Callers T
  | .miss m => s.goto i (.returned m (.failed e))
  | .stale .get v _ =>
    if e.isNotFound then
      s.goto i (.returned .get ⟨some (.cache, v.data), some .notFound⟩)
    else
      s.goto i (.returned .get (.found .cache v.data))
  | .stale .getOrSet v _ =>
    s.goto i (.returned .getOrSet (.found .cache v.data))
  | .soft _ => s.goto i .finished
  | .eager _ => s.goto i .finished

/-- What a thread does with a value. -/
def receiveValue (i : ℕ) (env : Env) (reg : Registration) (origin : Origin)
    (mv : Value T) : Reason T → Callers T
  | .miss .get =>
    (s.fill k env reg mv (env.ttl k reg)).goto i (.returned .get (.found origin mv.data))
  | .miss .getOrSet => s.goto i (.returned .getOrSet (.found origin mv.data))
  | .stale m _ currentTTL =>
    (s.fill k env reg mv (chosenTTL k reg env currentTTL)).goto i
      (.returned m (.found origin mv.data))
  | .soft currentTTL =>
    (s.onWarp fun w => w.cacheSet env k mv (wrap64 (chosenTTL k reg env currentTTL +
        reg.ttlOpts.failSafeGracePeriod))).goto i .finished
  | .eager currentTTL => (s.fill k env reg mv (chosenTTL k reg env currentTTL)).goto i .finished

def receiveStep (i : ℕ) (env : Env) : Option (Callers T) :=
  match s.threads i, s.warp.regs k with
  | .delivered r (.error e), some _ => some (s.receiveFault i e r)
  | .delivered r (.ok (origin, mv)), some reg =>
    some (s.receiveValue k i env reg origin mv r)
  | _, _ => none

/-! ## Steps of a flight -/

def fly (f : Flight T) (job : Job T) : Callers T := { s with flight := some { f with job := job } }

/-- `store.Get`. -/
def lookupStep (a : StoreAnswer) (env : Env) : Option (Callers T) :=
  match s.flight with
  | some f =>
    match f.job, a with
    | .lookup _, .content =>
      match s.warp.store k with
      | some data => some (s.fly f (.done
          (.ok (.store, Value.written data (env.clock (.fetch k))))))
      | none => some (s.fly f (.done (.error .notFound)))
    | .lookup _, .error e => some (s.fly f (.done (.error (.store e))))
    | .lookup false, .context =>
      if s.canceled f.starter then
        some (s.fly f (.done (.error (.context f.starter))))
      else
        none
    | _, _ => none
  | none => none

/-- The second `cache.Get` of a `GetOrSet`. -/
def checkStep (env : Env) : Option (Callers T) :=
  match s.flight with
  | some f =>
    match f.job with
    | .check =>
      match s.cacheGet k f.starter env with
      | .error e => some (s.fly f (.done (.error e)))
      | .ok (some v) => some (s.fly f (.done (.ok (.cache, v))))
      | .ok none => some (s.fly f (.load true))
    | _ => none
  | none => none

def loadStep (a : LoaderAnswer T) (env : Env) : Option (Callers T) :=
  match s.flight, s.warp.regs k with
  | some f, some reg =>
    match f.job, a with
    | .load write, .value v =>
      let mv := Value.written v (env.clock (.fetch k))
      if write then
        some ((s.onWarp fun w =>
          w.touch k (env.ttl k reg) mv.timestamp).fly f (.write mv))
      else
        some (s.fly f (.done (.ok (.loader, mv))))
    | .load _, .error e => some (s.fly f (.done (.error (.loader e))))
    | .load _, .context =>
      if s.canceled f.starter then
        some (s.fly f (.done (.error (.loaderContext f.starter))))
      else
        none
    | _, _ => none
  | _, _ => none

/-- `Set` of a loaded value, whose error is not returned. -/
def writeStep (env : Env) : Option (Callers T) :=
  match s.flight with
  | some f =>
    match f.job with
    | .write mv =>
      some ((s.onWarp fun w => (exec (Warp.set env k mv.data) w).2).fly f
        (.done (.ok (.loader, mv))))
    | _ => none
  | none => none

/-- Hand the result to a thread that waits for it. -/
def deliver (o : Outcome T) : Phase T → Phase T
  | .waiting r => .delivered r o
  | ph => ph

def finishStep : Option (Callers T) :=
  match s.flight with
  | some f =>
    match f.job with
    | .done o =>
      some { s with
        flight := none
        threads := fun i => deliver o (s.threads i) }
    | _ => none
  | none => none

end Callers

def step (k : Key) : Machine (Callers T) (Action T)
  | s, .call i m => s.callStep i m
  | s, .cancel i => s.cancelStep k i
  | s, .cacheGet i env => s.cacheGetStep k i env
  | s, .inspect i j env => s.inspectStep k i j env
  | s, .join i => s.joinStep i
  | s, .lookup a env => s.lookupStep k a env
  | s, .check env => s.checkStep k env
  | s, .load a env => s.loadStep k a env
  | s, .write env => s.writeStep k env
  | s, .finish => s.finishStep
  | s, .softTimeout i j => s.softTimeoutStep k i j
  | s, .receive i env => s.receiveStep k i env

end GoWarp.Core.Coalescing
