import GoWarp.Core.CommitResult
import GoWarp.Support.Transition

/-!
# Concurrent commits of one key

Any number of transactions, each with one `CompareAndSwap` of the same key from
the same expected value, as a machine that takes one access to the clock, the
cache, the store or the registration at a time.  `Commit` compares when it
reads the cache, and writes the cache and the store afterwards.

A commit whose steps are not interrupted does what `Txn.commit` does.
-/

namespace GoWarp.Core

open Support Support.Program Support.Step

variable {T : Type}

/-- Where the commit of a compare-and-swap stands. -/
inductive SwapPhase (T : Type) where
  | idle
  /-- before it reads the clock -/
  | called
  /-- before `cache.Get` and the comparison -/
  | timed (now : Instant)
  /-- before `cache.Set` -/
  | matched (newVal : Value T) (now : Instant)
  /-- before `batch.Set` or `store.Set` -/
  | cached (newVal : Value T) (now : Instant) (ttl : Duration)
  /-- before it updates the registration -/
  | written (newVal : Value T) (now : Instant) (ttl : Duration)
  /-- before `batch.Commit` -/
  | touched (newVal : Value T)
  | returned (err : Option Err)

/-- The Warp, the last reading of the clock, and the transactions. -/
structure Contest (T : Type) where
  warp : Warp T
  clock : Instant
  threads : ℕ → SwapPhase T

/-- The steps of the transactions.  `t` is the reading of the clock a step
takes and `d` what the TTL strategy answers. -/
inductive SwapAction where
  | call (i : ℕ)
  | readClock (i : ℕ) (t : Instant)
  | compare (i : ℕ) (t : Instant)
  | cacheSet (i : ℕ) (t : Instant) (d : Duration)
  | write (i : ℕ)
  | touch (i : ℕ)
  | finish (i : ℕ)

/-- The clock reading of a step, if it takes one. -/
def SwapAction.reading : SwapAction → Option Instant
  | .readClock _ t => some t
  | .compare _ t => some t
  | .cacheSet _ t _ => some t
  | _ => none

namespace Contest

/-- Move a transaction to another phase. -/
def goto (s : Contest T) (i : ℕ) (ph : SwapPhase T) : Contest T :=
  { s with threads := Function.update s.threads i ph }

def tick (s : Contest T) (t : Instant) : Contest T := { s with clock := t }

def onWarp (s : Contest T) (f : Warp T → Warp T) : Contest T := { s with warp := f s.warp }

section Steps

variable (k : Key) (expected : T) (new : ℕ → T) (reg : Registration) (s : Contest T)

/-- `Commit` is called. -/
def callStep (i : ℕ) : Option (Contest T) :=
  match s.threads i with
  | .idle => some (s.goto i .called)
  | _ => none

/-- `now := time.Now()`. -/
def readClockStep (i : ℕ) (t : Instant) : Option (Contest T) :=
  match s.threads i with
  | .called => some ((s.tick t).goto i (.timed t))
  | _ => none

/-- `cache.Get`, the comparison and the merge. -/
def compareStep [DecidableEq T] (i : ℕ) (t : Instant) : Option (Contest T) :=
  match s.threads i with
  | .timed now =>
    match s.warp.cache.get t k with
    | none => some ((s.tick t).goto i (.returned (some .casMismatch)))
    | some old =>
      if old.data = expected then
        some ((s.tick t).goto i (.matched (s.warp.merges.mergeOver k
          (some old) (Value.written (new i) now)) now))
      else
        some ((s.tick t).goto i (.returned (some .casMismatch)))
  | _ => none

/-- `cache.Set`. -/
def cacheSetStep (i : ℕ) (t : Instant) (d : Duration) : Option (Contest T) :=
  match s.threads i with
  | .matched newVal now =>
    let ttl := wrap64 ((if reg.hasStrategy then d else reg.ttl) + reg.ttlOpts.failSafeGracePeriod)
    some (((s.tick t).onWarp fun w =>
      { w with cache := w.cache.set t k newVal ttl }).goto i (.cached newVal now ttl))
  | _ => none

/-- `store.Set`, or `batch.Set`, which nobody else sees. -/
def writeStep (i : ℕ) : Option (Contest T) :=
  match s.threads i with
  | .cached newVal now ttl =>
    if s.warp.storeKind = .plain then
      some ((s.onWarp fun w => w.storeSet k newVal.data).goto i (.written newVal now ttl))
    else
      some (s.goto i (.written newVal now ttl))
  | _ => none

/-- The update of the registration. -/
def touchStep (i : ℕ) : Option (Contest T) :=
  match s.threads i with
  | .written newVal now ttl =>
    some ((s.onWarp fun w => w.touch k ttl now).goto i (.touched newVal))
  | _ => none

/-- `batch.Commit`, if there is a batch, and the end of the commit. -/
def finishStep (i : ℕ) : Option (Contest T) :=
  match s.threads i with
  | .touched newVal =>
    if s.warp.storeKind = .batcher then
      some ((s.onWarp fun w => { w with
        store := (Batch.empty.set k newVal.data).commit w.store }).goto i (.returned none))
    else
      some (s.goto i (.returned none))
  | _ => none

end Steps

/-- The step of the system, for a key with registration `reg`. -/
def stepWith [DecidableEq T] (k : Key) (expected : T) (new : ℕ → T)
    (reg : Registration) (s : Contest T) : SwapAction → Option (Contest T)
  | .call i => callStep s i
  | .readClock i t => readClockStep s i t
  | .compare i t => compareStep k expected new s i t
  | .cacheSet i t d => cacheSetStep k reg s i t d
  | .write i => writeStep k s i
  | .touch i => touchStep k s i
  | .finish i => finishStep k s i

/-- The machine of the transactions that replace `expected`, the one of the
thread `i` by `new i`, under the key `k` in `ModeStrongLocal`.  No call fails,
and the clock never goes back. -/
def machine [DecidableEq T] (k : Key) (expected : T) (new : ℕ → T) :
    Machine (Contest T) SwapAction := fun s a =>
  match s.warp.regs k with
  | none => none
  | some reg =>
    if ∀ t ∈ a.reading, s.clock ≤ t then stepWith k expected new reg s a
    else none

/-! ## What a step does -/

section Inversion

variable {k : Key} {expected : T} {new : ℕ → T} {reg : Registration}
  {s s' : Contest T} {i : ℕ} {t : Instant}

theorem callStep_eq_some (h : callStep s i = some s') :
    s.threads i = .idle ∧ s' = s.goto i .called := by
  rw [callStep] at h
  split at h
  next hi => exact ⟨hi, (Option.some.inj h).symm⟩
  next => cases h

theorem readClockStep_eq_some (h : readClockStep s i t = some s') :
    s.threads i = .called ∧ s' = (s.tick t).goto i (.timed t) := by
  rw [readClockStep] at h
  split at h
  next hi => exact ⟨hi, (Option.some.inj h).symm⟩
  next => cases h

theorem compareStep_eq_some [DecidableEq T] (h : compareStep k expected new s i t = some s') :
    ∃ now, s.threads i = .timed now ∧
      ((∃ old, s.warp.cache.get t k = some old ∧ old.data = expected ∧
          s' = (s.tick t).goto i (.matched (s.warp.merges.mergeOver k
            (some old) (Value.written (new i) now)) now)) ∨
        (∀ old, s.warp.cache.get t k = some old → old.data ≠ expected) ∧
          s' = (s.tick t).goto i (.returned (some .casMismatch))) := by
  rw [compareStep] at h
  split at h
  swap
  next => cases h
  next now hi =>
  refine ⟨now, hi, ?_⟩
  split at h
  next hget =>
    refine .inr ⟨fun old hold => ?_, (Option.some.inj h).symm⟩
    rw [hget] at hold
    cases hold
  next old hget =>
    split at h
    next hdata => exact .inl ⟨old, hget, hdata, (Option.some.inj h).symm⟩
    next hdata =>
      refine .inr ⟨fun old' hold => ?_, (Option.some.inj h).symm⟩
      rw [hget] at hold
      exact Option.some.inj hold ▸ hdata

theorem cacheSetStep_eq_some {d : Duration} (h : cacheSetStep k reg s i t d = some s') :
    ∃ newVal now ttl, s.threads i = .matched newVal now ∧ s' = ((s.tick t).onWarp fun w =>
        { w with cache := w.cache.set t k newVal ttl }).goto i (.cached newVal now ttl) := by
  rw [cacheSetStep] at h
  split at h
  next newVal now hi => exact ⟨newVal, now, _, hi, (Option.some.inj h).symm⟩
  next => cases h

theorem writeStep_eq_some (h : writeStep k s i = some s') :
    ∃ newVal now ttl, s.threads i = .cached newVal now ttl ∧ (s.warp.storeKind = .plain ∧
          s' = (s.onWarp fun w => w.storeSet k newVal.data).goto i (.written newVal now ttl) ∨
        s.warp.storeKind ≠ .plain ∧ s' = s.goto i (.written newVal now ttl)) := by
  rw [writeStep] at h
  split at h
  swap
  next => cases h
  next newVal now ttl hi =>
  refine ⟨newVal, now, ttl, hi, ?_⟩
  split at h
  next hkind => exact .inl ⟨hkind, (Option.some.inj h).symm⟩
  next hkind => exact .inr ⟨hkind, (Option.some.inj h).symm⟩

theorem touchStep_eq_some (h : touchStep k s i = some s') :
    ∃ newVal now ttl, s.threads i = .written newVal now ttl ∧
      s' = (s.onWarp fun w => w.touch k ttl now).goto i (.touched newVal) := by
  rw [touchStep] at h
  split at h
  next newVal now ttl hi => exact ⟨newVal, now, ttl, hi, (Option.some.inj h).symm⟩
  next => cases h

theorem finishStep_eq_some (h : finishStep k s i = some s') :
    ∃ newVal, s.threads i = .touched newVal ∧ (s.warp.storeKind = .batcher ∧
          s' = (s.onWarp fun w => { w with
            store := (Batch.empty.set k newVal.data).commit w.store }).goto i (.returned none) ∨
        s.warp.storeKind ≠ .batcher ∧ s' = s.goto i (.returned none)) := by
  rw [finishStep] at h
  split at h
  swap
  next => cases h
  next newVal hi =>
  refine ⟨newVal, hi, ?_⟩
  split at h
  next hkind => exact .inl ⟨hkind, (Option.some.inj h).symm⟩
  next hkind => exact .inr ⟨hkind, (Option.some.inj h).symm⟩

theorem machine_eq_some [DecidableEq T] {a : SwapAction}
    (h : machine k expected new s a = some s') :
    ∃ reg, s.warp.regs k = some reg ∧ (∀ t ∈ a.reading, s.clock ≤ t) ∧
      stepWith k expected new reg s a = some s' := by
  rw [machine] at h
  split at h
  next => cases h
  next reg hreg =>
  split at h
  next hclock => exact ⟨reg, hreg, hclock, h⟩
  next => cases h

end Inversion

end Contest

end GoWarp.Core
