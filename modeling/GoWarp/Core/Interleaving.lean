import GoWarp.Core.KeyOps
import GoWarp.Support.Transition

/-!
# Concurrent calls on one key

Any number of `Get` and `Set` calls on one key in `ModeStrongLocal`, taking
turns at their calls of the cache and the store.  A thread is a call, or a
goroutine that a `Get` has left behind.  Store reads of `Get` go through a
singleflight group: the threads that join while a read is under way share its
result.  No call of the cache or the store fails, and every reading of the
clock is later than the one before.
-/

namespace GoWarp.Core

open Support Support.Program

variable {T : Type}

/-- Why a thread reads the store through the singleflight group. -/
inductive Purpose (T : Type) where
  /-- a `Get` that missed -/
  | miss
  /-- a `Get` that found the stale value `v` -/
  | stale (v : Value T) (currentTTL : Duration)
  /-- what a `Get` leaves behind when its soft timeout has elapsed -/
  | soft (currentTTL : Duration)
  /-- the background refresh of a value about to expire -/
  | eager (currentTTL : Duration)

inductive Phase (T : Type) where
  | idle
  | returned
  /-- `Set`, before it reads the clock -/
  | setCalled (value : T)
  /-- `Set`, before `cache.Get` -/
  | setTimed (value : T) (now : Instant)
  /-- `Set` of a key with a merge function of its own, before `store.Get` -/
  | setMissed (value : T) (now : Instant)
  /-- `Set`, before `cache.Set` -/
  | setMerged (newVal : Value T) (now : Instant)
  /-- `Set`, before `store.Set` -/
  | setCached (newVal : Value T) (now : Instant) (ttl : Duration)
  /-- `Set`, before it updates the registration -/
  | setStored (now : Instant) (ttl : Duration)
  /-- `Get`, before `cache.Get` -/
  | getCalled
  /-- `Get`, before it reads the clock to tell whether a hit is stale -/
  | hit (v : Value T)
  /-- before joining the singleflight group -/
  | joining (p : Purpose T)
  /-- in the singleflight group -/
  | waiting (p : Purpose T)
  /-- with the result of the group, `none` for `ErrNotFound` -/
  | delivered (p : Purpose T) (result : Option (Value T))
  /-- before `cache.Set` of a value read from the store -/
  | filling (p : Purpose T) (mv : Value T) (ttl : Duration)
  /-- `Get` of a value that is not stale, before sliding expiration -/
  | fresh (v : Value T) (now : Instant)
  /-- `Get`, before `cache.Set` of the value it has found -/
  | sliding (v : Value T) (now : Instant) (ttl : Duration)
  /-- `Get`, before it considers a background refresh -/
  | slid (v : Value T) (now : Instant)

/-- The purposes of goroutines that outlive their `Get`. -/
def Purpose.inBackground : Purpose T → Bool
  | .soft _ => true
  | .eager _ => true
  | _ => false

def Phase.inCall : Phase T → Bool
  | .idle => false
  | .returned => false
  | .joining p => !p.inBackground
  | .waiting p => !p.inBackground
  | .delivered p _ => !p.inBackground
  | .filling p _ _ => !p.inBackground
  | _ => true

/-- A store read of the singleflight group. -/
inductive Flight (T : Type) where
  | started
  | read (val : Option T)

/-- The Warp, the last reading of the clock, the read under way in the
singleflight group, and the threads. -/
structure System (T : Type) where
  warp : Warp T
  clock : Instant
  flight : Option (Flight T)
  threads : ℕ → Phase T

namespace System

/-- Move a thread to another phase. -/
def goto (s : System T) (i : ℕ) (ph : Phase T) : System T :=
  { s with threads := Function.update s.threads i ph }

def tick (s : System T) (t : Instant) : System T := { s with clock := t }

def onWarp (s : System T) (f : Warp T → Warp T) : System T := { s with warp := f s.warp }

end System

/-! ## Steps -/

inductive Request (T : Type) where
  | get
  | set (value : T)

/-- Where a call begins. -/
def Request.firstPhase : Request T → Phase T
  | .get => .getCalled
  | .set value => .setCalled value

/-- The steps of the threads and of the singleflight group.  `t` is the
reading of the clock a step takes and `d` what the TTL strategy answers. -/
inductive Action (T : Type) where
  | call (i : ℕ) (r : Request T)
  | readClock (i : ℕ) (t : Instant)
  | cacheGet (i : ℕ) (t : Instant)
  | storeGet (i : ℕ)
  | cacheSet (i : ℕ) (t : Instant) (d : Duration)
  | storeSet (i : ℕ)
  | touch (i : ℕ)
  | inspect (i : ℕ) (t : Instant)
  | join (i : ℕ)
  | flightRead
  | flightFinish (t : Instant)
  | softTimeout (i : ℕ)
  | receive (i : ℕ) (d : Duration)
  | slide (i : ℕ) (d : Duration)
  | eager (i : ℕ) (j : ℕ)

namespace System

section Steps

variable (k : Key) (reg : Registration) (s : System T)

def cacheTTL (ttl : Duration) : Duration := wrap64 (ttl + reg.ttlOpts.failSafeGracePeriod)

def chosenTTL (d otherwise : Duration) : Duration := if reg.hasStrategy then d else otherwise

def callStep (i : ℕ) (r : Request T) : Option (System T) :=
  match s.threads i with
  | .idle => some (s.goto i r.firstPhase)
  | _ => none

/-- `now := time.Now()` of a `Set`. -/
def readClockStep (i : ℕ) (t : Instant) : Option (System T) :=
  match s.threads i with
  | .setCalled value => some ((s.tick t).goto i (.setTimed value t))
  | _ => none

/-- `cache.Get` of a `Set` or a `Get`. -/
def cacheGetStep (i : ℕ) (t : Instant) : Option (System T) :=
  match s.threads i, s.warp.cache.get t k with
  | .setTimed value now, some old =>
    some ((s.tick t).goto i (.setMerged
      (s.warp.merges.mergeOver k (some old) (Value.written value now)) now))
  | .setTimed value now, none =>
    if s.warp.storeKind ≠ .absent ∧ s.warp.merges.hasCustom k then
      some ((s.tick t).goto i (.setMissed value now))
    else
      some ((s.tick t).goto i (.setMerged (Value.written value now) now))
  | .getCalled, some v =>
    if s.warp.plainHit reg then
      some ((s.tick t).goto i .returned)
    else
      some ((s.tick t).goto i (.hit v))
  | .getCalled, none =>
    if s.warp.storeKind = .absent then
      some ((s.tick t).goto i .returned)
    else
      some ((s.tick t).goto i (.joining .miss))
  | _, _ => none

/-- `store.Get` of a `Set`. -/
def storeGetStep (i : ℕ) : Option (System T) :=
  match s.threads i with
  | .setMissed value now =>
    let old := (s.warp.store k).map fun data => Value.written data zeroInstant
    some (s.goto i (.setMerged (s.warp.merges.mergeOver k old (Value.written value now)) now))
  | _ => none

/-- `cache.Set` of a `Set`, of a value read from the store, or of a value that
a `Get` has found. -/
def cacheSetStep (i : ℕ) (t : Instant) (d : Duration) : Option (System T) :=
  let write (v : Value T) (ttl : Duration) : System T :=
    (s.tick t).onWarp fun w => { w with cache := w.cache.set t k v (cacheTTL reg ttl) }
  match s.threads i with
  | .setMerged newVal now =>
    let ttl := chosenTTL reg d reg.ttl
    some ((write newVal ttl).goto i (.setCached newVal now ttl))
  | .filling _ mv ttl => some ((write mv ttl).goto i .returned)
  | .sliding v now ttl => some ((write v ttl).goto i (.slid v now))
  | _ => none

/-- `store.Set` of a `Set`. -/
def storeSetStep (i : ℕ) : Option (System T) :=
  match s.threads i with
  | .setCached newVal now ttl =>
    if s.warp.storeKind ≠ .absent then
      some ((s.onWarp fun w => w.storeSet k newVal.data).goto i (.setStored now ttl))
    else
      some (s.goto i (.setStored now ttl))
  | _ => none

/-- The update of the registration at the end of a `Set`. -/
def touchStep (i : ℕ) : Option (System T) :=
  match s.threads i with
  | .setStored now ttl =>
    some ((s.onWarp fun w => w.touch k ttl now).goto i .returned)
  | _ => none

/-- A `Get` tells whether the value it has found is stale. -/
def inspectStep (i : ℕ) (t : Instant) : Option (System T) :=
  match s.threads i with
  | .hit v =>
    if Warp.isStale reg v t ∧ s.warp.storeKind ≠ .absent then
      some ((s.tick t).goto i (.joining (.stale v reg.currentTTL)))
    else
      some ((s.tick t).goto i (.fresh v t))
  | _ => none

/-- Join the read under way, or start one. -/
def joinStep (i : ℕ) : Option (System T) :=
  match s.threads i with
  | .joining p =>
    some { s.goto i (.waiting p) with
      flight := some (s.flight.getD .started) }
  | _ => none

/-- `store.Get` of the singleflight group. -/
def flightReadStep : Option (System T) :=
  match s.flight with
  | some .started => some { s with flight := some (.read (s.warp.store k)) }
  | _ => none

/-- Hand the result to a thread that waits for it. -/
def deliver (result : Option (Value T)) : Phase T → Phase T
  | .waiting p => .delivered p result
  | ph => ph

/-- The read ends: every thread in the group receives its result. -/
def flightFinishStep (t : Instant) : Option (System T) :=
  match s.flight with
  | some (.read val) =>
    let result := val.map fun data => Value.written data t
    some { s.tick t with
      flight := none
      threads := fun i => deliver result (s.threads i) }
  | _ => none

/-- The soft timeout of a `Get` elapses: it returns the stale value. -/
def softTimeoutStep (i : ℕ) : Option (System T) :=
  if 0 < reg.ttlOpts.softTimeout then
    match s.threads i with
    | .waiting (.stale _ ttl) => some (s.goto i (.waiting (.soft ttl)))
    | .delivered (.stale _ ttl) result =>
      some (s.goto i (.delivered (.soft ttl) result))
    | _ => none
  else
    none

/-- A thread takes the result of the group and, unless it is the one left
behind by a soft timeout, updates the registration. -/
def receiveStep (i : ℕ) (d : Duration) : Option (System T) :=
  match s.threads i with
  | .delivered _ none => some (s.goto i .returned)
  | .delivered .miss (some mv) =>
    let ttl := chosenTTL reg d reg.ttl
    some ((s.onWarp fun w => w.touch k ttl mv.timestamp).goto i (.filling .miss mv ttl))
  | .delivered (.stale v currentTTL) (some mv) =>
    let ttl := chosenTTL reg d currentTTL
    some ((s.onWarp fun w => w.touch k ttl mv.timestamp).goto i
      (.filling (.stale v currentTTL) mv ttl))
  | .delivered (.soft currentTTL) (some mv) =>
    some (s.goto i (.filling (.soft currentTTL) mv (chosenTTL reg d currentTTL)))
  | .delivered (.eager currentTTL) (some mv) =>
    let ttl := chosenTTL reg d currentTTL
    some ((s.onWarp fun w => w.touch k ttl mv.timestamp).goto i
      (.filling (.eager currentTTL) mv ttl))
  | _ => none

/-- Sliding expiration and frequency-based adjustment. -/
def slideStep (i : ℕ) (d : Duration) : Option (System T) :=
  match s.threads i with
  | .fresh v now =>
    if reg.ttlOpts.sliding ∨ 0 < reg.ttlOpts.freqThreshold then
      let ttl := Warp.slidTTL reg d now
      some ((s.onWarp fun w => w.touch k ttl now).goto i (.sliding v now ttl))
    else
      some (s.goto i (.slid v now))
  | _ => none

/-- A `Get` returns, and starts a background refresh if the value is about to
expire. -/
def eagerStep (i j : ℕ) : Option (System T) :=
  match s.threads i, s.threads j with
  | .slid v now, .idle =>
    if Warp.refreshDue s.warp reg v now then
      some ((s.goto i .returned).goto j (.joining (.eager reg.currentTTL)))
    else
      some (s.goto i .returned)
  | _, _ => none

end Steps

end System

/-- The clock reading of a step, if it takes one. -/
def Action.reading : Action T → Option Instant
  | .readClock _ t => some t
  | .cacheGet _ t => some t
  | .cacheSet _ t _ => some t
  | .inspect _ t => some t
  | .flightFinish t => some t
  | _ => none

namespace System

/-- The step of the system, for a key with registration `reg`. -/
def stepWith (k : Key) (reg : Registration) (s : System T) : Action T → Option (System T)
  | .call i r => callStep s i r
  | .readClock i t => readClockStep s i t
  | .cacheGet i t => cacheGetStep k reg s i t
  | .storeGet i => storeGetStep k s i
  | .cacheSet i t d => cacheSetStep k reg s i t d
  | .storeSet i => storeSetStep k s i
  | .touch i => touchStep k s i
  | .inspect i t => inspectStep reg s i t
  | .join i => joinStep s i
  | .flightRead => flightReadStep k s
  | .flightFinish t => flightFinishStep s t
  | .softTimeout i => softTimeoutStep reg s i
  | .receive i d => receiveStep k reg s i d
  | .slide i d => slideStep k reg s i d
  | .eager i j => eagerStep reg s i j

/-- The machine of all threads working on the key `k`. -/
def machine (k : Key) : Machine (System T) (Action T) := fun s a =>
  match s.warp.regs k with
  | none => none
  | some reg => if ∀ t ∈ a.reading, s.clock < t then stepWith k reg s a else none

end System

end GoWarp.Core
