import GoWarp.StreamBus.Replay
import GoWarp.StreamBus.Subscription
import GoWarp.Support.Trie
import GoWarp.Support.Transition
import Mathlib.Data.Finset.Basic
import Mathlib.Data.List.AList

/-!
# The in-memory bus

Subscriptions are registered by topic in a map, or by topic prefix in a trie
of bytes.  The maps hold the identifiers of subscriptions; the subscriptions
themselves are in `subs`, which never forgets one that `Subscribe` has
returned.  The steps of `Publish` that other goroutines can come between are
separate functions.
-/

namespace GoWarp.StreamBus

open Support

structure InMemory where
  config : Config
  exact : AList fun _ : Bytes => Finset ℕ
  prefixes : Trie UInt8 (Finset ℕ)
  replay : Bytes → Option ReplayBuffer
  seq : ℕ
  subSeq : ℕ
  closed : Bool
  subs : ℕ → Option Subscription

namespace InMemory

/-- `NewInMemory`. -/
def new (config : Config) : InMemory where
  config := config.normalized
  exact := ∅
  prefixes := Trie.leaf ∅
  replay := fun _ => none
  seq := 0
  subSeq := 0
  closed := false
  subs := fun _ => none

def setSub (b : InMemory) (s : Subscription) : InMemory :=
  { b with subs := Function.update b.subs s.id (some s) }

/-! ## Publishing -/

/-- The checks of `Publish` before the frame is numbered. -/
def publishError (b : InMemory) (ctxDone : Bool) (frame : Frame) :
    Option BusError :=
  if frame.topic = [] then some .invalidTopic
  else if b.config.maxPayloadBytes < frame.payloadLength then
    some .payloadTooLarge
  else if ctxDone then some .context
  else none

/-- The payload as it is published; copying an empty payload makes it nil. -/
def publishedPayload (b : InMemory) (frame : Frame) : Option Bytes :=
  if b.config.copyPayload ∧ frame.payload = some [] then none
  else frame.payload

/-- The frame as it is published: numbered, and stamped unless it has a time
already. -/
def stamp (b : InMemory) (now : Time) (frame : Frame) : Frame :=
  { frame with
    payload := b.publishedPayload frame
    sequence := b.seq + 1
    timestamp := if frame.timestamp.IsZero then now.toUTC else frame.timestamp }

def takeNumber (b : InMemory) : InMemory := { b with seq := b.seq + 1 }

/-- The identifiers registered for a topic. -/
def exactIds (b : InMemory) (topic : Bytes) : Finset ℕ := (b.exact.lookup topic).getD ∅

/-- The subscriptions a frame is sent to. -/
def targets (b : InMemory) (topic : Bytes) : Finset ℕ :=
  (b.prefixes.along topic).foldl (· ∪ ·) (b.exactIds topic)

/-- The journal of a topic, created when it is first needed. -/
def journalOf (b : InMemory) (hpos : 0 < b.config.replayCapacity) (topic : Bytes) : ReplayBuffer :=
  (b.replay topic).getD (ReplayBuffer.new b.config.replayCapacity.toNat (by omega))

def addToJournal (b : InMemory) (frame : Frame) : InMemory :=
  if hpos : 0 < b.config.replayCapacity then
    { b with
      replay := Function.update b.replay frame.topic
        (some ((b.journalOf hpos frame.topic).add frame)) }
  else
    b

/-- What `Publish` does under the lock: pick the targets and add the frame to
the journal. -/
def route (b : InMemory) (frame : Frame) : Except BusError (Finset ℕ × InMemory) :=
  if b.closed then .error .closed
  else .ok (b.targets frame.topic, b.addToJournal frame)

/-- Enqueue a frame to one subscription.  A publisher that is blocked stays so
until its context is cancelled. -/
def enqueueTo (b : InMemory) (frame : Frame) (id : ℕ) : Option BusError × InMemory :=
  match b.subs id with
  | none => (none, b)
  | some s =>
    match s.enqueue frame with
    | .done => (none, b)
    | .accepted s' => (none, b.setSub s')
    | .blocked => (some .context, b)

/-- Enqueue a frame to each subscription of a list, up to the first error. -/
def fanOut (b : InMemory) (frame : Frame) : List ℕ → Option BusError × InMemory
  | [] => (none, b)
  | id :: rest =>
    match b.enqueueTo frame id with
    | (some e, b') => (some e, b')
    | (none, b') => fanOut b' frame rest

/-- `Publish` without interruption, with the targets in the given order: the
sequence number it returns, its error, and the bus it leaves. -/
def publish (b : InMemory) (ctxDone : Bool) (now : Time) (frame : Frame)
    (order : List ℕ) : (ℕ × Option BusError) × InMemory :=
  match b.publishError ctxDone frame with
  | some e => ((0, some e), b)
  | none =>
    let stamped := b.stamp now frame
    match b.takeNumber.route stamped with
    | .error e => ((0, some e), b.takeNumber)
    | .ok (_, b') =>
      let (err, b'') := b'.fanOut stamped order
      ((stamped.sequence, err), b'')

/-! ## Subscribing -/

/-- The checks and defaults of `Subscribe`. -/
def checkOptions (b : InMemory) (o : SubscribeOptions) :
    Except BusError ValidOptions :=
  if htopic : o.topic = [] then
    .error .invalidTopic
  else
    let buffer := if o.buffer = 0 then b.config.defaultBuffer else o.buffer
    if hbuffer : buffer < 1 ∨ b.config.maxBuffer < buffer then
      .error .invalidBuffer
    else
      .ok
        { topic := o.topic
          isPrefix := o.isPrefix
          buffer := buffer
          overflow := o.overflow
          replay := if o.isPrefix ∨ o.replay < 0 then 0 else o.replay
          since := if o.isPrefix then 0 else o.since
          topic_ne := htopic
          buffer_pos := by omega }

/-- The frames a new subscription starts with. -/
def replayFor (b : InMemory) (o : ValidOptions) : Except BusError (List Frame) :=
  match b.replay o.topic with
  | some journal =>
    if 0 < o.since then
      let (frames, gap) := journal.after o.since
      if gap ∨ o.buffer < frames.length then .error .replayUnavailable
      else .ok frames
    else if 0 < o.replay then
      .ok (journal.last o.replay.toNat)
    else
      .ok []
  | none =>
    if 0 < o.since ∧ b.config.replayCapacity = 0 then
      .error .replayUnavailable
    else
      .ok []

def takeId (b : InMemory) : InMemory := { b with subSeq := b.subSeq + 1 }

def register (b : InMemory) (s : Subscription) : InMemory :=
  let b := b.setSub s
  if s.options.isPrefix then
    { b with
      prefixes := b.prefixes.modify ∅ (fun ids => insert s.id ids) s.options.topic }
  else
    { b with
      exact := b.exact.insert s.options.topic (insert s.id (b.exactIds s.options.topic)) }

/-- `InMemory.remove`. -/
def remove (b : InMemory) (id : ℕ) (o : ValidOptions) : InMemory :=
  if o.isPrefix then
    { b with prefixes := b.prefixes.adjust (fun ids => ids.erase id) o.topic }
  else
    let ids := (b.exactIds o.topic).erase id
    if ids = ∅ then
      { b with exact := b.exact.erase o.topic }
    else
      { b with exact := b.exact.insert o.topic ids }

/-- `Subscribe`: the identifier of the new subscription or an error, and the
bus it leaves.  A subscription that cannot be registered is closed again. -/
def subscribe (b : InMemory) (ctxDone : Bool) (o : SubscribeOptions) :
    Except BusError ℕ × InMemory :=
  match b.checkOptions o with
  | .error e => (.error e, b)
  | .ok options =>
    if ctxDone then
      (.error .context, b)
    else
      let id := b.subSeq + 1
      let b := b.takeId
      if b.closed then
        (.error .closed, b.remove id options)
      else
        match b.replayFor options with
        | .error e => (.error e, b.remove id options)
        | .ok frames => (.ok id, b.register ((Subscription.new id options).preload frames))

/-! ## Closing -/

/-- `Subscription.Close`. -/
def closeSub (b : InMemory) (id : ℕ) : InMemory :=
  match b.subs id with
  | none => b
  | some s =>
    if s.closed then b
    else (b.setSub { s with closed := true }).remove id s.options

/-- Everything registered anywhere. -/
def registered (b : InMemory) : Finset ℕ :=
  (b.exact.entries.map Sigma.snd ++ b.prefixes.values).foldl (· ∪ ·) ∅

/-- `InMemory.Close`, with the subscriptions closed in the given order. -/
def close (b : InMemory) (order : List ℕ) : InMemory :=
  if b.closed then
    b
  else
    order.foldl closeSub { b with closed := true, exact := ∅, prefixes := Trie.leaf ∅ }

/-! ## The bus as a machine -/

/-- The operations on a bus, and the steps of delivery.  Where a map is
iterated over, the operation names the order. -/
inductive Op where
  | publish (ctxDone : Bool) (now : Time) (frame : Frame) (order : List ℕ)
  | subscribe (ctxDone : Bool) (o : SubscribeOptions)
  | closeSub (id : ℕ)
  | close (order : List ℕ)
  | pump (id : ℕ)
  | receive (id : ℕ)

/-- A list is an iteration order of a set. -/
def IsOrderOf (order : List ℕ) (ids : Finset ℕ) : Prop := order.Nodup ∧ order.toFinset = ids

instance (order : List ℕ) (ids : Finset ℕ) : Decidable (IsOrderOf order ids) :=
  inferInstanceAs (Decidable (_ ∧ _))

def step : Machine InMemory Op := fun b op =>
  match op with
  | .publish ctxDone now frame order =>
    if IsOrderOf order (b.targets frame.topic) then
      some (b.publish ctxDone now frame order).2
    else
      none
  | .subscribe ctxDone o => some (b.subscribe ctxDone o).2
  | .closeSub id => some (b.closeSub id)
  | .close order =>
    if IsOrderOf order b.registered then some (b.close order) else none
  | .pump id =>
    ((b.subs id).bind Subscription.pump).map b.setSub
  | .receive id => ((b.subs id).bind Subscription.receive).map fun r => b.setSub r.2

end InMemory

end GoWarp.StreamBus
