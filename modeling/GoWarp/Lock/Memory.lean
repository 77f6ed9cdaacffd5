import Mathlib.Data.Nat.Notation
import Mathlib.Logic.Function.Basic

/-!
# The in-memory locker

`InMemory` keeps a table of the locks it takes to be held, by itself or by
another instance.  An instance publishes a lock event after it has taken a
lock and an unlock event after it has released one, and a listener for each
kind of event updates the table.  The events of an instance come back to its
own listeners.  A counter for each topic tells how many events of the topic
the instance has announced and not seen yet, and a listener ignores an event
while the counter is positive.

Each definition here is one critical section under the mutex of the instance.
-/

namespace GoWarp.Lock

open Function (update)

abbrev Key := String

def lockTopic (key : Key) : String := "lock:" ++ key

def unlockTopic (key : Key) : String := "unlock:" ++ key

theorem lockTopic_ne_unlockTopic (key key' : Key) : lockTopic key ≠ unlockTopic key' := by
  intro h
  have hlist := congrArg String.toList h
  simp [lockTopic, unlockTopic] at hlist

/-- `lockState`: the timer that releases the lock, if any.  The channel that
is closed when the state is deleted has no reader. -/
structure LockState where
  timer : Option ℕ
deriving DecidableEq

/-- `InMemory`, without its bus. -/
structure InMemory where
  locks : Key → Option LockState
  subs : Key → Bool
  pending : String → ℕ

namespace InMemory

/-- `NewInMemory`. -/
def new : InMemory := ⟨fun _ => none, fun _ => false, fun _ => 0⟩

/-- The beginning of `ensureSubscriptions`: claim the subscriptions of a key,
unless they have been claimed. -/
def reserve (l : InMemory) (key : Key) : Option InMemory :=
  if l.subs key then none
  else some { l with subs := update l.subs key true }

/-- What `ensureSubscriptions` does when it cannot subscribe. -/
def cleanup (l : InMemory) (key : Key) : InMemory := { l with subs := update l.subs key false }

/-- The section of `TryLock`; `none` when the lock is held. -/
def tryLock (l : InMemory) (key : Key) (timer : Option ℕ) : Option InMemory :=
  match l.locks key with
  | some _ => none
  | none =>
    some { l with
      locks := update l.locks key (some ⟨timer⟩)
      pending := update l.pending (lockTopic key) (l.pending (lockTopic key) + 1) }

/-- The section of `Release`; `none` when the lock is not held. -/
def release (l : InMemory) (key : Key) : Option InMemory :=
  match l.locks key with
  | none => none
  | some _ =>
    some { l with
      locks := update l.locks key none
      pending := update l.pending (unlockTopic key) (l.pending (unlockTopic key) + 1) }

/-- The listener at a lock event. -/
def onLock (l : InMemory) (key : Key) : InMemory :=
  if 0 < l.pending (lockTopic key) then
    { l with
      pending := update l.pending (lockTopic key) (l.pending (lockTopic key) - 1) }
  else
    match l.locks key with
    | some _ => l
    | none => { l with locks := update l.locks key (some ⟨none⟩) }

/-- The listener at an unlock event. -/
def onUnlock (l : InMemory) (key : Key) : InMemory :=
  if 0 < l.pending (unlockTopic key) then
    { l with
      pending := update l.pending (unlockTopic key) (l.pending (unlockTopic key) - 1) }
  else
    { l with locks := update l.locks key none }

variable {l l' : InMemory} {key : Key}

theorem tryLock_eq_some {timer : Option ℕ} (h : l.tryLock key timer = some l') :
    l.locks key = none ∧ l' = { l with
      locks := update l.locks key (some ⟨timer⟩)
      pending := update l.pending (lockTopic key) (l.pending (lockTopic key) + 1) } := by
  rw [tryLock] at h
  split at h
  · cases h
  · rename_i hfree
    exact ⟨hfree, (Option.some.inj h).symm⟩

theorem release_eq_some (h : l.release key = some l') : l.locks key ≠ none ∧ l' = { l with
      locks := update l.locks key none
      pending := update l.pending (unlockTopic key) (l.pending (unlockTopic key) + 1) } := by
  rw [release] at h
  split at h
  · cases h
  · rename_i st hheld
    refine ⟨?_, (Option.some.inj h).symm⟩
    rw [hheld]
    exact Option.some_ne_none st

end InMemory

end GoWarp.Lock
