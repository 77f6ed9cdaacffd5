import GoWarp.StreamBus.Transport
import GoWarp.StreamBus.Routing

/-!
# The WebTransport session

A session handles control messages one after the other and runs a pump for
each subscription it has accepted.  The control goroutine and the pumps share
the table `subscriptions`, which is keyed by the numbers the client chooses.
The sections under `subsMu` and the calls to the bus are the atomic steps;
between them any other step may come.
-/

namespace GoWarp.StreamBus

open Support
open Function (update update_of_ne update_self)

inductive SessionError where
  | reliableOnly (kind : UInt8)
  | subscriptionIDRequired
  | subscriptionIDExists
  | unknownSubscription
  | unsupportedKind (kind : UInt8)
  | sendFailed
  | bus (e : BusError)
deriving DecidableEq

/-- What a session puts out: messages on the control stream, pongs as
datagrams, and errors given to `OnError`. -/
inductive Output where
  | ack (id subscriptionID ack : ℕ)
  | pong (id : ℕ)
  | error (id : ℕ) (e : SessionError)
  | pongDatagram (id : ℕ)
  | report (e : SessionError)
deriving DecidableEq

/-- What the control goroutine is doing: waiting for a message, between the
sections of `subscribe`, before the `Close` of `unsubscribe`, or in
`closeSubscriptions` with some subscriptions left to close. -/
inductive Control where
  | idle
  | checked (message : Message)
  | subscribed (message : Message) (n : ℕ)
  | closing (n : ℕ)
  | ended (rest : List ℕ)
deriving DecidableEq

/-- The message of a `subscribe` that has passed its check. -/
def Control.subscribing : Control → Option Message
  | .checked m => some m
  | .subscribed m _ => some m
  | _ => none

/-- Where a pump is: in its loop, before its deferred cleanup, or between the
two parts of the cleanup. -/
inductive PumpPhase where
  | running
  | ending
  | removed
  | done
deriving DecidableEq

/-- A subscription that `subscribe` has accepted. -/
structure Accepted where
  /-- the number the client has given it -/
  id : ℕ
  pump : PumpPhase
  /-- whether an `Unsubscribe` has taken it from the table -/
  unsubscribed : Bool
deriving DecidableEq

/-- `sessionState`, and its goroutines.  A `*streambus.Subscription` is the
number the bus has given it. -/
structure Session where
  bus : InMemory
  subscriptions : AList fun _ : ℕ => ℕ
  acks : AList fun _ : ℕ => ℕ
  control : Control
  accepted : ℕ → Option Accepted
  outputs : List Output

namespace Session

/-- A session over a bus, before the first message. -/
def new (bus : InMemory) : Session where
  bus := bus
  subscriptions := ∅
  acks := ∅
  control := .idle
  accepted := fun _ => none
  outputs := []

def onBus (s : Session) (b : InMemory) : Session := { s with bus := b }

def goto (s : Session) (control : Control) : Session := { s with control := control }

def put (s : Session) (out : Output) : Session := { s with outputs := s.outputs ++ [out] }

def setAccepted (s : Session) (n : ℕ) (a : Option Accepted) : Session :=
  { s with accepted := update s.accepted n a }

/-- Delete a number from both tables. -/
def drop (s : Session) (id : ℕ) : Session :=
  { s with
    subscriptions := s.subscriptions.erase id
    acks := s.acks.erase id }

/-! ## Control messages -/

/-- What handling a message depends on besides the session. -/
structure Call where
  now : Time
  ctxDone : Bool
  order : List ℕ
  sends : Bool

/-- An error of `handleMessage`, answered on the control stream or reported. -/
def fail (s : Session) (datagram : Bool) (m : Message) (e : SessionError) :
    Session :=
  s.put (if datagram then .report e else .error m.id e)

/-- `subscribe` up to the end of its first section. -/
def subscribe (s : Session) (m : Message) : Session :=
  if m.subscriptionID = 0 then
    s.fail false m .subscriptionIDRequired
  else if (s.subscriptions.lookup m.subscriptionID).isSome then
    s.fail false m .subscriptionIDExists
  else
    s.goto (.checked m)

def subscribeOptions (m : Message) : SubscribeOptions :=
  if m.options.topic = [] then { m.options with topic := m.frame.topic }
  else m.options

/-- The call of `Bus.Subscribe` in `subscribe`. -/
def subscribeToBus (s : Session) (ctxDone : Bool) (m : Message) : Session :=
  match s.bus.subscribe ctxDone (subscribeOptions m) with
  | (.error e, b) => ((s.onBus b).goto .idle).fail false m (.bus e)
  | (.ok n, b) => (s.onBus b).goto (.subscribed m n)

/-- The second section of `subscribe`, the start of the pump and the answer. -/
def register (s : Session) (m : Message) (n : ℕ) : Session :=
  ({ s with
      subscriptions := s.subscriptions.insert m.subscriptionID n
      acks := s.acks.insert m.subscriptionID m.options.since
      accepted := update s.accepted n (some ⟨m.subscriptionID, .running, false⟩)
      control := .idle }).put (.ack m.id m.subscriptionID 0)

/-- `unsubscribe` up to the end of its section. -/
def unsubscribe (s : Session) (m : Message) : Session :=
  match s.subscriptions.lookup m.subscriptionID with
  | none => (s.drop m.subscriptionID).fail false m .unknownSubscription
  | some n =>
    (((s.drop m.subscriptionID).setAccepted n
      ((s.accepted n).map fun a => { a with unsubscribed := true }))).goto (.closing n)

/-- The answer to a publish message; a frame from a datagram is unreliable. -/
def publish (s : Session) (call : Call) (datagram : Bool) (m : Message) :
    Option Session :=
  let frame := if datagram then { m.frame with reliability := unreliable } else m.frame
  if InMemory.IsOrderOf call.order (s.bus.targets frame.topic) then
    match s.bus.publish call.ctxDone call.now frame call.order with
    | ((_, some e), b) => some ((s.onBus b).fail datagram m (.bus e))
    | ((sequence, none), b) =>
      some (if datagram then s.onBus b
        else (s.onBus b).put (.ack m.id 0 sequence))
  else
    none

/-- Note the acknowledgement of a registered subscription. -/
def ack (s : Session) (m : Message) : Session :=
  if (s.subscriptions.lookup m.subscriptionID).isSome then
    { s with acks := s.acks.insert m.subscriptionID m.ack }
  else
    s

def ping (s : Session) (call : Call) (datagram : Bool) (m : Message) :
    Session :=
  if datagram then
    if call.sends then s.put (.pongDatagram m.id)
    else s.fail datagram m .sendFailed
  else
    s.put (.pong m.id)

/-- `handleMessage` up to the end of its first section. -/
def handleMessage (s : Session) (call : Call) (datagram : Bool) (m : Message) : Option Session :=
  if m.kind = messageSubscribe then
    some (if datagram then s.fail datagram m (.reliableOnly m.kind)
      else s.subscribe m)
  else if m.kind = messageUnsubscribe then
    some (if datagram then s.fail datagram m (.reliableOnly m.kind)
      else s.unsubscribe m)
  else if m.kind = messagePublish then
    s.publish call datagram m
  else if m.kind = messageAck then
    some (if datagram then s.fail datagram m (.reliableOnly m.kind)
      else s.ack m)
  else if m.kind = messagePing then
    some (s.ping call datagram m)
  else
    some (s.fail datagram m (.unsupportedKind m.kind))

/-! ## Pumps -/

/-- Put the pump of a subscription into another phase. -/
def setPump (s : Session) (n : ℕ) (a : Accepted) (phase : PumpPhase) :
    Session :=
  s.setAccepted n (some { a with pump := phase })

/-- One round of the pump: receive a frame and send it.  `written` is whether
the stream could be opened and takes the message. -/
def forward (h : Handler) (s : Session) (n : ℕ) (a : Accepted) (link : Link)
    (written : Bool) : Option Session :=
  ((s.bus.subs n).bind Subscription.receive).map fun r =>
    let s := s.onBus (s.bus.setSub r.2)
    match h.transmit link a.id r.1 with
    | .error _ => s.setPump n a .ending
    | .ok (.datagram _) => s
    | .ok (.stream _) => if written then s else s.setPump n a .ending

/-! ## The session as a machine -/

/-- The steps of a session.  A pump stops because its context is done or
because the channel of its subscription is closed. -/
inductive Action where
  | message (call : Call) (datagram : Bool) (m : Message)
  | subscribeToBus (ctxDone : Bool)
  | register
  | closeUnsubscribed
  | forward (n : ℕ) (link : Link) (written : Bool)
  | stop (n : ℕ)
  | drained (n : ℕ)
  | cleanup (n : ℕ)
  | closeEnded (n : ℕ)
  | bus (op : InMemory.Op)
  | closeSubscriptions (order : List ℕ)
  | closeNext

def machine (h : Handler) : Machine Session Action := fun s action =>
  match action with
  | .message call datagram m =>
    -- the control goroutine is one, datagrams have a goroutine of their own
    if datagram ∨ s.control = .idle then s.handleMessage call datagram m
    else none
  | .subscribeToBus ctxDone =>
    match s.control with
    | .checked m => some (s.subscribeToBus ctxDone m)
    | _ => none
  | .register =>
    match s.control with
    | .subscribed m n => some (s.register m n)
    | _ => none
  | .closeUnsubscribed =>
    match s.control with
    | .closing n => some ((s.onBus (s.bus.closeSub n)).goto .idle)
    | _ => none
  | .forward n link written =>
    match s.accepted n with
    | some ⟨id, .running, unsubscribed⟩ =>
      s.forward h n ⟨id, .running, unsubscribed⟩ link written
    | _ => none
  | .stop n =>
    match s.accepted n with
    | some ⟨id, .running, unsubscribed⟩ =>
      some (s.setPump n ⟨id, .running, unsubscribed⟩ .ending)
    | _ => none
  | .drained n =>
    match s.accepted n, s.bus.subs n with
    | some ⟨id, .running, unsubscribed⟩, some sub =>
      if sub.closed then
        some (s.setPump n ⟨id, .running, unsubscribed⟩ .ending)
      else
        none
    | _, _ => none
  | .cleanup n =>
    match s.accepted n with
    | some ⟨id, .ending, unsubscribed⟩ =>
      some ((s.drop id).setPump n ⟨id, .ending, unsubscribed⟩ .removed)
    | _ => none
  | .closeEnded n =>
    match s.accepted n with
    | some ⟨id, .removed, unsubscribed⟩ =>
      some ((s.onBus (s.bus.closeSub n)).setPump n ⟨id, .removed, unsubscribed⟩ .done)
    | _ => none
  | .bus op => (InMemory.step s.bus op).map s.onBus
  | .closeSubscriptions order =>
    if s.control = .idle ∧ order.Perm (s.subscriptions.entries.map Sigma.snd) then
      some ({ s with subscriptions := ∅, acks := ∅ }.goto (.ended order))
    else
      none
  | .closeNext =>
    match s.control with
    | .ended (n :: rest) =>
      some ((s.onBus (s.bus.closeSub n)).goto (.ended rest))
    | _ => none

/-! ## Live subscriptions -/

/-- A subscription has been accepted under a number, is neither unsubscribed
nor closed, and its own pump and the session are still at work. -/
structure Live (s : Session) (n id : ℕ) : Prop where
  accepted : s.accepted n = some ⟨id, .running, false⟩
  isOpen : ∃ sub, s.bus.subs n = some sub ∧ sub.closed = false
  serving : ∀ rest, s.control ≠ .ended rest

/-- A subscription is registered under its number, so that a `Subscribe` with
that number is refused and an `Unsubscribe` closes it. -/
structure Keeps (h : Handler) (s : Session) (n id : ℕ) : Prop where
  registered : s.subscriptions.lookup id = some n
  refuses : ∀ call m, m.kind = messageSubscribe → m.subscriptionID = id → s.control = .idle →
    ∃ e, machine h s (.message call false m) = some (s.put (.error m.id e))
  closes : ∀ call m, m.kind = messageUnsubscribe → m.subscriptionID = id → s.control = .idle →
    ∃ s' s'' sub, machine h s (.message call false m) = some s' ∧
      machine h s' .closeUnsubscribed = some s'' ∧
      s''.bus.subs n = some sub ∧ sub.closed = true

/-- Every live subscription is kept. -/
def KeepsAll (h : Handler) (s : Session) : Prop := ∀ n id, s.Live n id → s.Keeps h n id

/-- The step is not the cleanup of a pump whose number belongs to a live
subscription. -/
def SparesLive (s : Session) : Action → Prop
  | .cleanup n => ∀ a m, s.accepted n = some a →
      s.subscriptions.lookup a.id = some m → ¬s.Live m a.id
  | _ => True

end Session

/-! ## The bus under a session -/

namespace InMemory

/-- Subscriptions stay known to the bus, and closed ones stay closed. -/
structure Advances (b b' : InMemory) : Prop where
  registered : b'.Registered
  subs : ∀ n sub, b.subs n = some sub →
    ∃ sub', b'.subs n = some sub' ∧ (sub.closed = true → sub'.closed = true)

theorem Registered.advances_closeSub {b : InMemory} (hb : b.Registered)
    (id : ℕ) : Advances b (b.closeSub id) := by
  refine ⟨hb.closeSub id, fun n sub hsub => ?_⟩
  rw [subs_closeSub hb.subs_id]
  split
  next heq =>
    rw [← heq, hsub]
    exact ⟨markClosed sub, rfl, fun _ => rfl⟩
  next => exact ⟨sub, hsub, fun h => h⟩

theorem Registered.advances_step {b b' : InMemory} (hb : b.Registered)
    (op : Op) (h : InMemory.step b op = some b') : Advances b b' := by
  refine ⟨hb.step h, fun n sub hsub => ?_⟩
  rcases step_cases hb h with
    hsame | ⟨s, rfl, hid, _, _⟩ | ⟨id, rfl⟩ | ⟨order, _, rfl⟩
  · obtain ⟨sub', hsub', hsame⟩ := hsame.forth n sub hsub
    exact ⟨sub', hsub', fun hclosed => hsame.closed.trans hclosed⟩
  · have hne : n ≠ s.id := by
      have hle := hb.subs_le n sub hsub
      omega
    refine ⟨sub, ?_, fun h => h⟩
    rw [(subs_register _ _).1, subs_setSub, if_neg hne]
    exact hsub
  · exact (hb.advances_closeSub id).subs n sub hsub
  · rw [InMemory.close]
    split
    · exact ⟨sub, hsub, fun h => h⟩
    · have hfold := subs_foldl_closeSub order (b := { b with
        closed := true, exact := ∅, prefixes := .leaf ∅ }) hb.subs_id n
      rw [hfold]
      change ∃ sub', (if n ∈ order then (b.subs n).map markClosed
        else b.subs n) = some sub' ∧ _
      rw [hsub]
      split
      · exact ⟨markClosed sub, rfl, fun _ => rfl⟩
      · exact ⟨sub, rfl, fun h => h⟩

end InMemory

namespace Session

variable {h : Handler} {s s' : Session}

/-! ## The invariant -/

/-- Live subscriptions are registered, and the number a `subscribe` has found
free stays free until it is taken. -/
structure Inv (s : Session) : Prop where
  registered : s.bus.Registered
  known : ∀ n a, s.accepted n = some a → ∃ sub, s.bus.subs n = some sub
  pending : ∀ m n, s.control = .subscribed m n → ∃ sub, s.bus.subs n = some sub
  vacant : ∀ m, s.control.subscribing = some m → s.subscriptions.lookup m.subscriptionID = none
  kept : ∀ n id, s.Live n id → s.subscriptions.lookup id = some n

theorem inv_new {b : InMemory} (hb : b.Registered) : (new b).Inv where
  registered := hb
  known := fun _ _ h => nomatch h
  pending := fun _ _ h => nomatch h
  vacant := fun _ h => nomatch h
  kept := fun _ _ h => nomatch h.accepted

section

variable (hs : s.Inv)
include hs

theorem Inv.put (out : Output) : (s.put out).Inv :=
  ⟨hs.registered, hs.known, hs.pending, hs.vacant, fun n id hlive =>
    hs.kept n id ⟨hlive.accepted, hlive.isOpen, hlive.serving⟩⟩

theorem Inv.fail (datagram : Bool) (m : Message) (e : SessionError) : (s.fail datagram m e).Inv :=
  hs.put _

theorem Inv.onBus {b : InMemory} (hb : InMemory.Advances s.bus b) : (s.onBus b).Inv := by
  have hknown : ∀ n, (∃ sub, s.bus.subs n = some sub) → ∃ sub, b.subs n = some sub := by
    rintro n ⟨sub, hsub⟩
    obtain ⟨sub', hsub', _⟩ := hb.subs n sub hsub
    exact ⟨sub', hsub'⟩
  refine ⟨hb.registered, fun n a ha => hknown n (hs.known n a ha),
    fun m n hm => hknown n (hs.pending m n hm), hs.vacant, ?_⟩
  rintro n id ⟨haccepted, ⟨sub', hsub', hopen⟩, hserving⟩
  refine hs.kept n id ⟨haccepted, ?_, hserving⟩
  -- what is open now was open before
  obtain ⟨sub, hsub⟩ := hs.known n _ haccepted
  obtain ⟨sub'', hsub'', hclosed⟩ := hb.subs n sub hsub
  obtain rfl := Option.mem_unique hsub' hsub''
  refine ⟨sub, hsub, ?_⟩
  rw [← Bool.not_eq_true]
  intro htrue
  rw [hclosed htrue] at hopen
  cases hopen

theorem Inv.goto {control : Control} (hpending : ∀ m n, control = .subscribed m n →
      ∃ sub, s.bus.subs n = some sub)
    (hvacant : ∀ m, control.subscribing = some m → s.subscriptions.lookup m.subscriptionID = none)
    (hserving : (∀ rest, control ≠ .ended rest) →
      ∀ rest, s.control ≠ .ended rest) : (s.goto control).Inv :=
  ⟨hs.registered, hs.known, hpending, hvacant, fun n id hlive =>
    hs.kept n id ⟨hlive.accepted, hlive.isOpen, hserving hlive.serving⟩⟩

variable {n : ℕ} {m : Message}

theorem Inv.setAccepted {a : Option Accepted} (hknown : a ≠ none → ∃ a', s.accepted n = some a')
    (hlive : ∀ id, a ≠ some ⟨id, .running, false⟩) :
    (s.setAccepted n a).Inv := by
  refine ⟨hs.registered, ?_, hs.pending, hs.vacant, ?_⟩
  · intro n' a' ha'
    change update s.accepted n a n' = some a' at ha'
    by_cases heq : n' = n
    · subst heq
      rw [update_self] at ha'
      obtain ⟨a'', ha''⟩ := hknown (by rw [ha']; exact Option.some_ne_none a')
      exact hs.known n' a'' ha''
    · rw [update_of_ne heq] at ha'
      exact hs.known n' a' ha'
  · rintro n' id ⟨haccepted, hopen, hserving⟩
    change update s.accepted n a n' = _ at haccepted
    by_cases heq : n' = n
    · subst heq
      rw [update_self] at haccepted
      exact absurd haccepted (hlive id)
    · rw [update_of_ne heq] at haccepted
      exact hs.kept n' id ⟨haccepted, hopen, hserving⟩

theorem Inv.setPump {a : Accepted} (ha : s.accepted n = some a) {phase : PumpPhase}
    (hphase : phase ≠ .running) : (s.setPump n a phase).Inv := by
  refine hs.setAccepted (fun _ => ⟨a, ha⟩) ?_
  intro id heq
  rw [Option.some.injEq, Accepted.mk.injEq] at heq
  exact hphase heq.2.1

theorem Inv.drop (id : ℕ) (hdead : ∀ n, ¬s.Live n id) : (s.drop id).Inv := by
  refine ⟨hs.registered, hs.known, hs.pending, ?_, ?_⟩
  · intro m hm
    change (s.subscriptions.erase id).lookup m.subscriptionID = none
    by_cases heq : m.subscriptionID = id
    · rw [heq, AList.lookup_erase]
    · rw [AList.lookup_erase_ne heq]
      exact hs.vacant m hm
  · intro n id' hlive
    have hlive' : s.Live n id' := ⟨hlive.accepted, hlive.isOpen, hlive.serving⟩
    have hne : id' ≠ id := by
      rintro rfl
      exact hdead n hlive'
    change (s.subscriptions.erase id).lookup id' = some n
    rw [AList.lookup_erase_ne hne]
    exact hs.kept n id' hlive'

/-! ## Every step -/

theorem Inv.subscribe (hidle : s.control = .idle) (m : Message) : (s.subscribe m).Inv := by
  rw [Session.subscribe]
  split
  · exact hs.fail _ _ _
  · split
    · exact hs.fail _ _ _
    · rename_i hfree
      refine hs.goto (fun _ _ heq => nomatch heq) ?_ ?_
      · intro m' hm'
        cases hm'
        exact Option.not_isSome_iff_eq_none.mp hfree
      · intro _ rest
        rw [hidle]
        exact fun heq => nomatch heq

theorem Inv.unsubscribe (hidle : s.control = .idle) (m : Message) : (s.unsubscribe m).Inv := by
  rw [Session.unsubscribe]
  split
  · rename_i hnone
    refine (hs.drop _ ?_).fail _ _ _
    intro n hlive
    rw [hs.kept n _ hlive] at hnone
    cases hnone
  · rename_i n hsome
    -- marking the record first, the number has no live subscription any more
    have hmarked : (s.setAccepted n ((s.accepted n).map fun a =>
        { a with unsubscribed := true })).Inv := by
      refine hs.setAccepted ?_ ?_
      · intro hne
        exact Option.ne_none_iff_exists'.mp fun hnone => hne (by rw [hnone, Option.map_none])
      · intro id heq
        obtain ⟨a, _, ha⟩ := Option.map_eq_some_iff.mp heq
        rw [Accepted.mk.injEq] at ha
        exact Bool.noConfusion ha.2.2
    refine (hmarked.drop m.subscriptionID ?_).goto
      (fun _ _ heq => nomatch heq) (fun _ heq => nomatch heq) ?_
    · intro n' hlive
      have hn' := hmarked.kept n' _ hlive
      change s.subscriptions.lookup _ = _ at hn'
      rw [hsome] at hn'
      cases hn'
      have haccepted := hlive.accepted
      change update s.accepted n _ n = _ at haccepted
      rw [update_self] at haccepted
      obtain ⟨a, _, ha⟩ := Option.map_eq_some_iff.mp haccepted
      rw [Accepted.mk.injEq] at ha
      exact Bool.noConfusion ha.2.2
    · intro _ rest
      change s.control ≠ _
      rw [hidle]
      exact fun heq => nomatch heq

theorem Inv.publish {call : Call} {datagram : Bool}
    (hstep : s.publish call datagram m = some s') : s'.Inv := by
  rw [Session.publish] at hstep
  dsimp only at hstep
  generalize hframe : (if datagram = true then
    { m.frame with reliability := unreliable } else m.frame) = frame at hstep
  split at hstep
  · rename_i horder
    have hbus := hs.registered.advances_step
      (.publish call.ctxDone call.now frame call.order) (if_pos horder)
    split at hstep
    · rename_i heq
      cases hstep
      rw [heq] at hbus
      exact (hs.onBus hbus).fail _ _ _
    · rename_i heq
      cases hstep
      rw [heq] at hbus
      split
      · exact hs.onBus hbus
      · exact (hs.onBus hbus).put _
  · cases hstep

theorem Inv.ack (m : Message) : (s.ack m).Inv := by
  rw [Session.ack]
  split
  · exact ⟨hs.registered, hs.known, hs.pending, hs.vacant, fun n id hlive =>
      hs.kept n id ⟨hlive.accepted, hlive.isOpen, hlive.serving⟩⟩
  · exact hs

theorem Inv.ping (call : Call) (datagram : Bool) (m : Message) : (s.ping call datagram m).Inv := by
  rw [Session.ping]
  split
  · split
    · exact hs.put _
    · exact hs.fail _ _ _
  · exact hs.put _

theorem Inv.handleMessage {call : Call} {datagram : Bool}
    (hidle : datagram = true ∨ s.control = .idle)
    (hstep : s.handleMessage call datagram m = some s') : s'.Inv := by
  have hreliable : ∀ {t : Session}, (datagram = false → t.Inv) →
      (if datagram then s.fail datagram m (.reliableOnly m.kind) else t).Inv := by
    intro t ht
    rcases datagram with _ | _
    · exact ht rfl
    · exact hs.fail _ _ _
  have hcontrol : datagram = false → s.control = .idle := by
    rintro rfl
    exact hidle.resolve_left Bool.false_ne_true
  rw [Session.handleMessage] at hstep
  split at hstep
  · cases hstep
    exact hreliable fun hd => hs.subscribe (hcontrol hd) m
  · split at hstep
    · cases hstep
      exact hreliable fun hd => hs.unsubscribe (hcontrol hd) m
    · split at hstep
      · exact hs.publish hstep
      · split at hstep
        · cases hstep
          exact hreliable fun _ => hs.ack m
        · split at hstep
          · cases hstep
            exact hs.ping call datagram m
          · cases hstep
            exact hs.fail _ _ _

theorem Inv.subscribeToBus (hcontrol : s.control = .checked m) (ctxDone : Bool) :
    (s.subscribeToBus ctxDone m).Inv := by
  have hbus := hs.registered.advances_step (.subscribe ctxDone (subscribeOptions m)) rfl
  have hserving : ∀ rest, s.control ≠ .ended rest := by
    intro rest
    rw [hcontrol]
    exact fun heq => nomatch heq
  have hcases := s.bus.subscribe_cases ctxDone (subscribeOptions m)
  rw [Session.subscribeToBus]
  split
  · rename_i heq
    rw [heq] at hbus
    refine .fail ((hs.onBus hbus).goto ?_ ?_ fun _ => hserving) _ _ _
    · exact fun _ _ h => nomatch h
    · exact fun _ h => nomatch h
  · rename_i n b heq
    rw [heq] at hbus
    refine (hs.onBus hbus).goto ?_ ?_ fun _ => hserving
    · rintro m' n' hm'
      obtain ⟨rfl, rfl⟩ := Control.subscribed.inj hm'
      rcases hcases with ⟨e, hcase⟩ | ⟨e, options, hcase⟩ | ⟨options, frames, _, _, _, hcase⟩
      · rw [heq] at hcase
        cases hcase
      · rw [heq] at hcase
        cases hcase
      · rw [heq, Prod.mk.injEq, Except.ok.injEq] at hcase
        obtain ⟨rfl, rfl⟩ := hcase
        refine ⟨(Subscription.new (s.bus.subSeq + 1) options).preload frames, ?_⟩
        change (InMemory.register _ _).subs _ = _
        rw [(InMemory.subs_register _ _).1, InMemory.subs_setSub, if_pos]
        exact (Subscription.same_preload (.new (s.bus.subSeq + 1) options) frames).id.symm
    · intro m' hm'
      cases hm'
      exact hs.vacant m (by rw [hcontrol]; rfl)

theorem Inv.register (hcontrol : s.control = .subscribed m n) : (s.register m n).Inv := by
  have hfree := hs.vacant m (by rw [hcontrol]; rfl)
  rw [Session.register]
  refine .put ?_ _
  refine ⟨hs.registered, ?_, (fun _ _ h => nomatch h), (fun _ h => nomatch h), ?_⟩
  · intro n' a ha
    change update s.accepted n _ n' = some a at ha
    by_cases heq : n' = n
    · rw [heq]
      exact hs.pending m n hcontrol
    · rw [update_of_ne heq] at ha
      exact hs.known n' a ha
  · rintro n' id ⟨haccepted, hopen, _⟩
    change update s.accepted n _ n' = _ at haccepted
    change (s.subscriptions.insert m.subscriptionID n).lookup id = some n'
    by_cases heq : n' = n
    · rw [heq, update_self, Option.some.injEq, Accepted.mk.injEq] at haccepted
      rw [← haccepted.1, AList.lookup_insert, heq]
    · rw [update_of_ne heq] at haccepted
      have hold := hs.kept n' id ⟨haccepted, hopen, fun rest => by
        rw [hcontrol]
        exact fun h => nomatch h⟩
      have hne : id ≠ m.subscriptionID := by
        rintro rfl
        rw [hfree] at hold
        cases hold
      rw [AList.lookup_insert_ne hne]
      exact hold

theorem Inv.forward {a : Accepted} (ha : s.accepted n = some a) {link : Link} {written : Bool}
    (hstep : s.forward h n a link written = some s') : s'.Inv := by
  obtain ⟨r, hreceive, rfl⟩ := Option.map_eq_some_iff.mp hstep
  have hbus : InMemory.step s.bus (.receive n) = some (s.bus.setSub r.2) := by
    rw [InMemory.step, hreceive]
    rfl
  have hs' := hs.onBus (hs.registered.advances_step _ hbus)
  have hend : ((s.onBus (s.bus.setSub r.2)).setPump n a .ending).Inv := hs'.setPump ha (by decide)
  dsimp only
  split
  · exact hend
  · exact hs'
  · split
    · exact hs'
    · exact hend

theorem Inv.step {action : Action} (hspares : s.SparesLive action)
    (hstep : machine h s action = some s') : s'.Inv := by
  have hquiet : ∀ {t : Session} {control : Control}, t.Inv →
      t.control = control → (∀ rest, control ≠ .ended rest) →
      (t.goto .idle).Inv := by
    intro t control ht hcontrol hserving
    refine ht.goto (fun _ _ h => nomatch h) (fun _ h => nomatch h) ?_
    rw [hcontrol]
    exact fun _ => hserving
  cases action with
  | message call datagram m =>
    rw [machine] at hstep
    split at hstep
    · rename_i hidle
      exact hs.handleMessage hidle hstep
    · cases hstep
  | subscribeToBus ctxDone =>
    rw [machine] at hstep
    split at hstep
    · rename_i m hcontrol
      cases hstep
      exact hs.subscribeToBus hcontrol ctxDone
    · cases hstep
  | register =>
    rw [machine] at hstep
    split at hstep
    · rename_i m n hcontrol
      cases hstep
      exact hs.register hcontrol
    · cases hstep
  | closeUnsubscribed =>
    rw [machine] at hstep
    split at hstep
    · rename_i n hcontrol
      cases hstep
      exact hquiet (hs.onBus (hs.registered.advances_closeSub n)) hcontrol fun _ h => nomatch h
    · cases hstep
  | forward n link written =>
    rw [machine] at hstep
    split at hstep
    · rename_i ha
      exact hs.forward ha hstep
    · cases hstep
  | stop n =>
    rw [machine] at hstep
    split at hstep
    · rename_i ha
      cases hstep
      exact hs.setPump ha fun h => nomatch h
    · cases hstep
  | drained n =>
    rw [machine] at hstep
    split at hstep
    · rename_i ha _
      split at hstep
      · cases hstep
        exact hs.setPump ha fun h => nomatch h
      · cases hstep
    · cases hstep
  | cleanup n =>
    rw [machine] at hstep
    split at hstep
    · rename_i id unsubscribed ha
      cases hstep
      refine (hs.drop id ?_).setPump ha fun h => nomatch h
      intro m hlive
      exact hspares _ m ha (hs.kept m id hlive) hlive
    · cases hstep
  | closeEnded n =>
    rw [machine] at hstep
    split at hstep
    · rename_i ha
      cases hstep
      refine (hs.onBus (hs.registered.advances_closeSub n)).setPump ha ?_
      exact fun h => nomatch h
    · cases hstep
  | bus op =>
    obtain ⟨b, hb, rfl⟩ := Option.map_eq_some_iff.mp hstep
    exact hs.onBus (hs.registered.advances_step op hb)
  | closeSubscriptions order =>
    rw [machine] at hstep
    split at hstep
    · cases hstep
      exact ⟨hs.registered, hs.known, (fun _ _ h => nomatch h),
        (fun _ h => nomatch h), fun _ _ hlive => absurd rfl (hlive.serving order)⟩
    · cases hstep
  | closeNext =>
    rw [machine] at hstep
    split at hstep
    · rename_i n rest hcontrol
      cases hstep
      refine (hs.onBus (hs.registered.advances_closeSub n)).goto
        (fun _ _ h => nomatch h) (fun _ h => nomatch h) ?_
      exact fun hserving => absurd rfl (hserving rest)
    · cases hstep

/-! ## What registration is for -/

theorem Inv.keepsAll : s.KeepsAll h := by
  intro n id hlive
  have hlookup := hs.kept n id hlive
  refine ⟨hlookup, ?_, ?_⟩
  · rintro call m hkind rfl hidle
    have hstep : machine h s (.message call false m) = some (s.subscribe m) := by
      rw [machine]
      rw [if_pos (.inr hidle), Session.handleMessage, if_pos hkind]
      rfl
    rw [hstep, Session.subscribe]
    split
    · exact ⟨_, rfl⟩
    · rw [if_pos (by rw [hlookup]; rfl)]
      exact ⟨_, rfl⟩
  · rintro call m hkind rfl hidle
    have hstep : machine h s (.message call false m) = some (s.unsubscribe m) := by
      rw [machine]
      rw [if_pos (.inr hidle), Session.handleMessage, if_neg, if_pos hkind]
      · rfl
      · rw [hkind]
        decide
    obtain ⟨sub, hsub, _⟩ := hlive.isOpen
    rw [hstep, Session.unsubscribe, hlookup]
    refine ⟨_, _, InMemory.markClosed sub, rfl, rfl, ?_, rfl⟩
    change (s.bus.closeSub n).subs n = _
    rw [InMemory.subs_closeSub hs.registered.subs_id, if_pos rfl, hsub]
    rfl

end

theorem sparesLive_of_keepsAll {action : Action}
    (hstep : machine h s action = some s') (hkeeps : s'.KeepsAll h) :
    s.SparesLive action := by
  cases action with
  | cleanup n =>
    intro a m ha hlookup hlive
    rw [machine] at hstep
    rw [ha] at hstep
    obtain ⟨id, phase, unsubscribed⟩ := a
    rcases phase with _ | _ | _ | _
    case ending =>
      cases hstep
      have hne : m ≠ n := by
        rintro rfl
        rw [hlive.accepted] at ha
        cases ha
      have hlive' : Live ((s.drop id).setPump n ⟨id, .ending, unsubscribed⟩ .removed) m id := by
        refine ⟨?_, hlive.isOpen, hlive.serving⟩
        change update s.accepted n _ m = _
        rw [update_of_ne hne]
        exact hlive.accepted
      have hgone := (hkeeps m id hlive').registered
      change (s.subscriptions.erase id).lookup id = some m at hgone
      rw [AList.lookup_erase] at hgone
      cases hgone
    all_goals cases hstep
  | _ => trivial

/-- Along every run of a session over a bus, every live subscription is
registered under its number, cannot be subscribed over and is closed by an
`Unsubscribe`, exactly if no pump cleans up while its number belongs to a live
subscription. -/
theorem keepsAll_iff_sparesLive (h : Handler) {config : Config}
    {ops : List InMemory.Op} {b : InMemory}
    (hb : InMemory.step.run (InMemory.new config) ops = some b)
    {actions : List Action} (hrun : (machine h).run (new b) actions = some s) :
    (∀ before t, before <+: actions → (machine h).run (new b) before = some t → t.KeepsAll h) ↔
    (machine h).AllSteps SparesLive (new b) actions :=
  (machine h).forall_states_iff_allSteps (fun _ _ _ hs hspares hstep => hs.step hspares hstep)
    (fun _ hs => hs.keepsAll)
    (fun _ _ _ _ hstep hkeeps => sparesLive_of_keepsAll hstep hkeeps)
    hrun (inv_new (InMemory.registered_run hb))

def sampleMessage (kind : UInt8) : Message :=
  { kind := kind
    id := 1
    subscriptionID := 5
    ack := 0
    frame := Frame.zero
    options := InMemory.sampleOptions
    error := [] }

def sampleCall : Call := ⟨Time.zero, false, [], true⟩

/-- Subscribe to number 5. -/
def subscribeActions : List Action :=
  [.message sampleCall false (sampleMessage messageSubscribe), .subscribeToBus false, .register]

/-- Unsubscribe number 5. -/
def unsubscribeActions : List Action :=
  [.message sampleCall false (sampleMessage messageUnsubscribe), .closeUnsubscribed]

def sampleBus : InMemory := InMemory.new ⟨0, 0, 0, 0, false⟩

/-- The first pump cleans up before its number is used again. -/
def orderlyActions : List Action :=
  subscribeActions ++ unsubscribeActions ++ [.drained 1, .cleanup 1] ++ subscribeActions

/-- The first pump cleans up after its number has been used again. -/
def lateActions : List Action :=
  subscribeActions ++ unsubscribeActions ++ subscribeActions ++ [.drained 1, .cleanup 1]

theorem keepsAll_orderlyActions : ∃ s, (machine ⟨0⟩).run (new sampleBus) orderlyActions = some s ∧
      s.Live 2 5 ∧ s.Keeps ⟨0⟩ 2 5 := by
  have hsteps : (machine ⟨0⟩).AllSteps SparesLive (new sampleBus)
      orderlyActions := by
    iterate 6 refine .cons trivial rfl ?_
    refine .cons ?_ rfl ?_
    · -- at the cleanup nothing is registered
      intro a m ha hlookup
      cases ha
      cases hlookup
    · exact ⟨trivial, fun _ _ => ⟨trivial, fun _ _ => ⟨trivial, fun _ _ => trivial⟩⟩⟩
  obtain ⟨s, hrun, hlive⟩ : ∃ s, (machine ⟨0⟩).run (new sampleBus)
      orderlyActions = some s ∧ s.Live 2 5 :=
    ⟨_, rfl, rfl, ⟨_, rfl, rfl⟩, fun _ h => nomatch h⟩
  refine ⟨s, hrun, hlive, ?_⟩
  have hbus : InMemory.step.run sampleBus [] = some sampleBus := rfl
  exact (keepsAll_iff_sparesLive ⟨0⟩ hbus hrun).mpr hsteps _ s (List.prefix_refl _) hrun 2 5 hlive

/-- The second subscription is live and can be neither found nor
unsubscribed. -/
theorem unregistered_lateActions : ∃ s, (machine ⟨0⟩).run (new sampleBus) lateActions = some s ∧
      s.Live 2 5 ∧ s.subscriptions.lookup 5 = none ∧
      ¬s.Keeps ⟨0⟩ 2 5 := by
  refine ⟨_, rfl, ⟨rfl, ⟨_, rfl, rfl⟩, fun _ h => nomatch h⟩, rfl, ?_⟩
  intro hkeeps
  cases hkeeps.registered

end Session

end GoWarp.StreamBus
