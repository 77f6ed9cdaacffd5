import Mathlib.Algebra.Order.Ring.Int

/-!
# StreamBus data types

Frames, subscription options and the bus configuration.  Strings and byte
slices are lists of bytes.  The small enumerations of the source are open
`uint8` types, so they stay bytes here, with the declared constants named.
Counters and sequence numbers are natural numbers: the 64-bit counter of the
bus would wrap only after `2 ^ 64` frames.
-/

namespace GoWarp.StreamBus

/-- A Go string or byte slice. -/
abbrev Bytes := List UInt8

/-- `time.Time`: an instant, in nanoseconds from the Unix epoch, and whether
its location is UTC. -/
structure Time where
  nanos : ℤ
  utc : Bool
deriving DecidableEq

namespace Time

/-- The zero `time.Time`, midnight of January 1 of year 1, UTC. -/
def zero : Time := ⟨-62135596800000000000, true⟩

/-- `Time.IsZero` looks at the instant only. -/
def IsZero (t : Time) : Prop := t.nanos = zero.nanos

instance (t : Time) : Decidable t.IsZero := inferInstanceAs (Decidable (t.nanos = zero.nanos))

/-- `Time.UTC`: the same instant, in UTC. -/
def toUTC (t : Time) : Time := ⟨t.nanos, true⟩

/-- `Time.UnixNano`, which wraps around outside of the range of `int64`. -/
def unixNano (t : Time) : ℤ := Int.bmod t.nanos (2 ^ 64)

theorem unixNano_of_range {t : Time} (hlo : -2 ^ 63 ≤ t.nanos) (hhi : t.nanos < 2 ^ 63) :
    t.unixNano = t.nanos := by
  apply Int.bmod_eq_of_le
  · omega
  · omega

end Time

/-! ## Enumerations -/

/-- `Reliability`. -/
def reliable : UInt8 := 0
def unreliable : UInt8 := 1

/-- `Priority`, from the least urgent class to the most urgent one. -/
def priorityBulk : UInt8 := 0
def priorityNormal : UInt8 := 1
def priorityCritical : UInt8 := 3

/-- `OverflowPolicy`; a byte that is none of these behaves as `Block`. -/
def block : UInt8 := 0
def dropNewest : UInt8 := 1
def dropOldest : UInt8 := 2
def latestOnly : UInt8 := 3

/-! ## Frames and options -/

/-- `Frame`.  The payload distinguishes a nil slice from an empty one. -/
structure Frame where
  sequence : ℕ
  timestamp : Time
  topic : Bytes
  payload : Option Bytes
  reliability : UInt8
  priority : UInt8
deriving DecidableEq

/-- `len(frame.Payload)`. -/
def Frame.payloadLength (frame : Frame) : ℕ := (frame.payload.getD []).length

/-- The zero `Frame`. -/
def Frame.zero : Frame := ⟨0, Time.zero, [], none, reliable, priorityBulk⟩

structure SubscribeOptions where
  topic : Bytes
  isPrefix : Bool
  buffer : ℤ
  overflow : UInt8
  replay : ℤ
  since : ℕ
deriving DecidableEq

structure Config where
  defaultBuffer : ℤ
  maxBuffer : ℤ
  replayCapacity : ℤ
  maxPayloadBytes : ℤ
  copyPayload : Bool
deriving DecidableEq

/-- `Config.normalized`: the defaults of the bus. -/
def Config.normalized (c : Config) : Config :=
  let defaultBuffer := if c.defaultBuffer ≤ 0 then 64 else c.defaultBuffer
  let maxBuffer := if c.maxBuffer ≤ 0 then 4096 else c.maxBuffer
  { c with
    defaultBuffer := if maxBuffer < defaultBuffer then maxBuffer else defaultBuffer
    maxBuffer := maxBuffer
    maxPayloadBytes := if c.maxPayloadBytes ≤ 0 then 16 * 2 ^ 20 else c.maxPayloadBytes }

/-- The errors of `Publish`, `Subscribe` and `Subscription.enqueue`.
`context` stands for the error of a cancelled context. -/
inductive BusError where
  | closed
  | subscriptionDone
  | invalidTopic
  | payloadTooLarge
  | invalidBuffer
  | replayUnavailable
  | context
deriving DecidableEq

end GoWarp.StreamBus
