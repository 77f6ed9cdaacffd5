import Mathlib.Data.List.AList

/-!
# Values and merge strategies

The cache holds values with a timestamp and a vector clock.  A write merges
the new value with the old one by the function registered for its key, or by
last-write-wins.
-/

namespace GoWarp.Core

/-- Keys are exact strings. -/
abbrev Key := String

/-- An instant, in nanoseconds from the Unix epoch. -/
abbrev Instant := ℤ

/-- A `time.Duration`, in nanoseconds. -/
abbrev Duration := ℤ

/-- The zero `time.Time`, midnight of January 1 of year 1. -/
def zeroInstant : Instant := -62135596800000000000

/-- `VectorClock`: a map from regions to counters. -/
abbrev VectorClock := AList fun _ : String => ℕ

namespace VectorClock

/-- `vc[region]`, zero when absent. -/
def counter (vc : VectorClock) (region : String) : ℕ := (vc.lookup region).getD 0

/-- `VectorClock.Merge`: the larger counter of each region. -/
def merge (vc other : VectorClock) : VectorClock :=
  other.entries.foldl (fun acc e => if acc.counter e.1 < e.2 then acc.insert e.1 e.2 else acc) vc

/-- `VectorClock.Compare`: 1 when `vc` dominates, -1 when `other` does, 0 when
they are equal and -2 when they are concurrent. -/
def compare (vc other : VectorClock) : ℤ :=
  let greater := vc.entries.any fun e => decide (other.counter e.1 < e.2)
  let smaller :=
    vc.entries.any (fun e => decide (e.2 < other.counter e.1)) ||
      other.entries.any fun e => decide (vc.lookup e.1 = none ∧ 0 < e.2)
  if greater && smaller then -2
  else if greater then 1
  else if smaller then -1
  else 0

end VectorClock

/-- `merge.Value`.  A nil vector clock is `none`. -/
structure Value (T : Type) where
  data : T
  timestamp : Instant
  vector : Option VectorClock
  region : String
deriving DecidableEq

namespace Value

variable {T : Type}

/-- A value written locally: no vector clock and no region. -/
def written (data : T) (timestamp : Instant) : Value T := ⟨data, timestamp, none, ""⟩

/-- `LastWriteWins.Merge`: the dominating vector clock decides if both values
have one, and the later timestamp otherwise; on a tie the old value stays. -/
def lastWriteWins (old new : Value T) : Value T :=
  let byTimestamp := if old.timestamp < new.timestamp then new else old
  match old.vector, new.vector with
  | some oldVector, some newVector =>
    match newVector.compare oldVector with
    | 1 => new
    | -1 => old
    | _ => byTimestamp
  | _, _ => byTimestamp

end Value

/-- `MergeFn`; `none` stands for an error, whose text no caller reads. -/
abbrev MergeFn (T : Type) := T → T → Option T

/-- `merge.Engine`: the merge functions registered by key. -/
abbrev Engine (T : Type) := Key → Option (MergeFn T)

namespace Engine

variable {T : Type}

def hasCustom (merges : Engine T) (k : Key) : Bool := (merges k).isSome

def merge (merges : Engine T) (k : Key) (old new : Value T) : Option (Value T) :=
  match merges k with
  | some fn =>
    (fn old.data new.data).map fun data =>
      { data := data
        timestamp := new.timestamp
        vector := some ((old.vector.getD ∅).merge (new.vector.getD ∅))
        region := new.region }
  | none => some (old.lastWriteWins new)

/-- The value a write stores over `old`: the merge when there is an old value
and the merge succeeds, and the new value otherwise. -/
def mergeOver (merges : Engine T) (k : Key) (old : Option (Value T)) (new : Value T) : Value T :=
  match old with
  | some old => (merges.merge k old new).getD new
  | none => new

end Engine

end GoWarp.Core
