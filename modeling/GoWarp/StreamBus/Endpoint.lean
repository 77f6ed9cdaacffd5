import GoWarp.StreamBus.Accounting
import GoWarp.Support.Entries
import GoWarp.Support.Transition

/-!
# A subscription and the goroutines around it

Every `Publish` calls `Subscription.enqueue` in a goroutine of its own, and
`Subscription.run` delivers in another one.  They meet at the lock of the
subscription and at the channels `notify` and `space`, which hold one token
each.  A step here is what one goroutine does between two points at which
another one can come in: a critical section, an operation on a channel, or the
change of a counter.

A send on `space` hands the token to a publisher that is parked in its
`select`, if there is one; which one, is left open.  Without such a publisher
the token is kept in the channel, or lost when the channel holds one already.

The ledger is kept beside the state.  It records where each frame has gone and
no step looks at it.
-/

namespace GoWarp.StreamBus

open Support
open Option (ite_none_right_eq_some)

/-- Where a call of `Subscription.enqueue` is. -/
inductive CallPhase where
  /-- At the head of the loop for the first time. -/
  | trying
  /-- The push has failed and the lock is released. -/
  | blocked
  /-- Parked in the `select`. -/
  | waiting
  /-- At the head of the loop again, with the token from `space`. -/
  | woken
  /-- The frame is in the queue and the lock is released. -/
  | signalling
  | returned (err : Option BusError)
deriving DecidableEq

structure EnqueueCall where
  frame : Frame
  ctxDone : Bool
  phase : CallPhase
deriving DecidableEq

/-- Where `Subscription.run` is. -/
inductive RunPhase where
  /-- In the outer `select`. -/
  | waiting
  /-- At the head of the inner loop. -/
  | draining
  /-- A frame is popped and the lock is released. -/
  | popped
  /-- In the inner `select`. -/
  | sending
  /-- The client has the frame, and it is not counted yet. -/
  | sent
  | stopped
deriving DecidableEq

/-- How far `Subscribe` is.  It holds the lock while it preloads, and it
registers the subscription last, so that no `Publish` finds it before. -/
inductive Setup where
  | created
  | preloading
  | preloaded
  | registered
deriving DecidableEq

/-- Where the frames have gone.  Frames that entered the queue or were dropped
on behalf of a call have its number. -/
structure Ledger where
  preloaded : List Frame
  entered : List (Option ℕ × Frame)
  delivered : List Frame
  evicted : List Frame
  dropped : List (ℕ × Frame)

/-- A subscription, its channels, and the goroutines that use it.  The frame
that `Subscription.run` has in its hands is `sub.inFlight`. -/
structure Endpoint where
  sub : Subscription
  doneClosed : Bool
  notify : Bool
  space : Bool
  setup : Setup
  run : RunPhase
  calls : List EnqueueCall
  ledger : Ledger

/-! ## Steps -/

namespace Subscription

/-- The client takes the frame in flight. -/
def handOver (s : Subscription) : Option (Frame × Subscription) :=
  s.inFlight.map fun frame => (frame, { s with inFlight := none })

/-- The frame that the client has taken is counted. -/
def countDelivered (s : Subscription) : Subscription := { s with delivered := s.delivered + 1 }

end Subscription

namespace Ledger

def preload (l : Ledger) (s : Subscription) (frames : List Frame) : Ledger :=
  { l with
    preloaded := l.preloaded ++ frames
    entered := l.entered ++ frames.map fun frame => (none, frame)
    evicted := l.evicted ++ s.preloadDropsAll frames }

/-- The frames of a call that does not wait. -/
def accept (l : Ledger) (s : Subscription) (i : ℕ) (frame : Frame) :
    Ledger :=
  { l with
    entered := l.entered ++ (s.enters frame).map fun f => (some i, f)
    dropped := l.dropped ++ (s.drops frame).map fun f => (i, f) }

/-- A frame for the client. -/
def deliver (l : Ledger) (frame : Frame) : Ledger := { l with delivered := l.delivered ++ [frame] }

end Ledger

/-- What a call of `Subscription.enqueue` does next, or is done to it. -/
inductive CallEvent where
  | cancel
  | attempt
  | park
  | takeSpace
  | giveUp
  | seeDone
  | signal
deriving DecidableEq

inductive EndpointEvent where
  | preload (frames : List Frame)
  | preloadSignal
  | register
  | call (frame : Frame) (ctxDone : Bool)
  | ofCall (i : ℕ) (a : CallEvent)
  | takeNotify
  | pop
  | signalSpace (receiver : Option ℕ)
  | receive
  | count
  | stop
  | markClosed
  | closeDone
deriving DecidableEq

namespace Endpoint

/-- `newSubscription`. -/
def new (id : ℕ) (options : ValidOptions) : Endpoint where
  sub := Subscription.new id options
  doneClosed := false
  notify := false
  space := false
  setup := .created
  run := .waiting
  calls := []
  ledger := ⟨[], [], [], [], []⟩

def goto (e : Endpoint) (i : ℕ) (c : EnqueueCall) (phase : CallPhase) :
    Endpoint :=
  { e with calls := e.calls.set i { c with phase := phase } }

/-- The critical section of `Subscription.enqueue`.  A frame that does not
enter the queue is dropped without a signal. -/
def attempt (e : Endpoint) (i : ℕ) (c : EnqueueCall) : Endpoint :=
  match e.sub.enqueue c.frame with
  | .done => e.goto i c (.returned (some .subscriptionDone))
  | .blocked => e.goto i c .blocked
  | .accepted sub =>
    { e with
      sub := sub
      ledger := e.ledger.accept e.sub i c.frame }.goto i c
      (if e.sub.enters c.frame = [] then .returned none else .signalling)

/-- One step of a call.  A call that is parked when its context is cancelled
returns; one that is about to enter the `select` chooses among the cases that
are ready, and parks if none is. -/
def callStep (e : Endpoint) (i : ℕ) (c : EnqueueCall) : CallEvent → Option Endpoint
  | .cancel =>
    if c.phase = .waiting then
      some (e.goto i { c with ctxDone := true } (.returned (some .context)))
    else
      some (e.goto i { c with ctxDone := true } c.phase)
  | .attempt =>
    if c.phase = .trying ∨ c.phase = .woken then some (e.attempt i c)
    else none
  | .park =>
    if c.phase = .blocked ∧ e.space = false ∧ c.ctxDone = false ∧ e.doneClosed = false then
      some (e.goto i c .waiting)
    else
      none
  | .takeSpace =>
    if c.phase = .blocked ∧ e.space = true then
      some ({ e with space := false }.goto i c .woken)
    else
      none
  | .giveUp =>
    if c.phase = .blocked ∧ c.ctxDone = true then
      some (e.goto i c (.returned (some .context)))
    else
      none
  | .seeDone =>
    if (c.phase = .blocked ∨ c.phase = .waiting) ∧ e.doneClosed = true then
      some (e.goto i c (.returned (some .subscriptionDone)))
    else
      none
  | .signal =>
    if c.phase = .signalling then
      some ({ e with notify := true }.goto i c (.returned none))
    else
      none

/-- No publisher is parked.  Closing `done` has woken all of them. -/
def NoneParked (e : Endpoint) : Prop := e.doneClosed = true ∨ ∀ c ∈ e.calls, c.phase ≠ .waiting

instance (e : Endpoint) : Decidable e.NoneParked := inferInstanceAs (Decidable (_ ∨ _))

def step : Machine Endpoint EndpointEvent := fun e a =>
  match a with
  | .preload frames =>
    if e.setup = .created ∧ frames ≠ [] then
      some { e with
        sub := e.sub.preload frames
        setup := .preloading
        ledger := e.ledger.preload e.sub frames }
    else
      none
  | .preloadSignal =>
    if e.setup = .preloading then
      some { e with
        setup := .preloaded
        notify := e.notify || decide (0 < e.sub.queue.len) }
    else
      none
  | .register =>
    if e.setup = .created ∨ e.setup = .preloaded then
      some { e with setup := .registered }
    else
      none
  | .call frame ctxDone =>
    if e.setup = .registered then
      some { e with calls := e.calls ++ [⟨frame, ctxDone, .trying⟩] }
    else
      none
  | .ofCall i a => e.calls[i]?.bind fun c => e.callStep i c a
  | .takeNotify =>
    if e.run = .waiting ∧ e.notify = true then
      some { e with notify := false, run := .draining }
    else
      none
  | .pop =>
    if e.run = .draining ∧ e.setup ≠ .preloading then
      match e.sub.pump with
      | some sub => some { e with sub := sub, run := .popped }
      | none => some { e with run := .waiting }
    else
      none
  | .signalSpace (some i) =>
    e.calls[i]?.bind fun c =>
      if e.run = .popped ∧ c.phase = .waiting ∧ e.doneClosed = false then
        some ({ e with run := .sending }.goto i c .woken)
      else
        none
  | .signalSpace none =>
    if e.run = .popped ∧ e.NoneParked then
      some { e with run := .sending, space := true }
    else
      none
  | .receive =>
    if e.run = .sending then
      e.sub.handOver.map fun r =>
        { e with
          sub := r.2
          run := .sent
          ledger := e.ledger.deliver r.1 }
    else
      none
  | .count =>
    if e.run = .sent then
      some { e with sub := e.sub.countDelivered, run := .draining }
    else
      none
  | .stop =>
    if (e.run = .waiting ∨ e.run = .sending) ∧ e.doneClosed = true then
      some { e with run := .stopped }
    else
      none
  | .markClosed =>
    if e.sub.closed = false ∧ e.setup ≠ .preloading then
      some { e with sub := { e.sub with closed := true } }
    else
      none
  | .closeDone =>
    if e.sub.closed = true ∧ e.doneClosed = false then
      some { e with doneClosed := true }
    else
      none

/-- The endpoints of the subscriptions with given options, in all states that
any goroutines can bring them to. -/
def Reachable (options : ValidOptions) (e : Endpoint) : Prop :=
  ∃ id events, Machine.run step (new id options) events = some e

/-! ## What a step can do -/

inductive CallMoves (e : Endpoint) (i : ℕ) (c : EnqueueCall) :
    CallEvent → Endpoint → Prop where
  | cancelParked (hphase : c.phase = .waiting) :
      CallMoves e i c .cancel (e.goto i { c with ctxDone := true } (.returned (some .context)))
  | cancel (hphase : c.phase ≠ .waiting) :
      CallMoves e i c .cancel (e.goto i { c with ctxDone := true } c.phase)
  | done (hphase : c.phase = .trying ∨ c.phase = .woken)
      (h : e.sub.enqueue c.frame = .done) :
      CallMoves e i c .attempt (e.goto i c (.returned (some .subscriptionDone)))
  | block (hphase : c.phase = .trying ∨ c.phase = .woken)
      (h : e.sub.enqueue c.frame = .blocked) :
      CallMoves e i c .attempt (e.goto i c .blocked)
  | accept (hphase : c.phase = .trying ∨ c.phase = .woken)
      (sub : Subscription) (h : e.sub.enqueue c.frame = .accepted sub) :
      CallMoves e i c .attempt ({ e with
        sub := sub
        ledger := e.ledger.accept e.sub i c.frame }.goto i c
        (if e.sub.enters c.frame = [] then .returned none else .signalling))
  | park (hphase : c.phase = .blocked) (hspace : e.space = false)
      (hctx : c.ctxDone = false) (hdone : e.doneClosed = false) :
      CallMoves e i c .park (e.goto i c .waiting)
  | takeSpace (hphase : c.phase = .blocked) (hspace : e.space = true) :
      CallMoves e i c .takeSpace ({ e with space := false }.goto i c .woken)
  | giveUp (hphase : c.phase = .blocked) (hctx : c.ctxDone = true) :
      CallMoves e i c .giveUp (e.goto i c (.returned (some .context)))
  | seeDone (hphase : c.phase = .blocked ∨ c.phase = .waiting)
      (hdone : e.doneClosed = true) :
      CallMoves e i c .seeDone (e.goto i c (.returned (some .subscriptionDone)))
  | signal (hphase : c.phase = .signalling) :
      CallMoves e i c .signal ({ e with notify := true }.goto i c (.returned none))

inductive Moves (e : Endpoint) : EndpointEvent → Endpoint → Prop where
  | preload (frames : List Frame) (hsetup : e.setup = .created) :
      Moves e (.preload frames) { e with
        sub := e.sub.preload frames
        setup := .preloading
        ledger := e.ledger.preload e.sub frames }
  | preloadSignal (hsetup : e.setup = .preloading) :
      Moves e .preloadSignal { e with
        setup := .preloaded
        notify := e.notify || decide (0 < e.sub.queue.len) }
  | register (hsetup : e.setup = .created ∨ e.setup = .preloaded) :
      Moves e .register { e with setup := .registered }
  | call (frame : Frame) (ctxDone : Bool) (hsetup : e.setup = .registered) :
      Moves e (.call frame ctxDone) { e with calls := e.calls ++ [⟨frame, ctxDone, .trying⟩] }
  | ofCall (i : ℕ) (c : EnqueueCall) (a : CallEvent) (e' : Endpoint)
      (hc : e.calls[i]? = some c) (hmoves : CallMoves e i c a e') :
      Moves e (.ofCall i a) e'
  | takeNotify (hrun : e.run = .waiting) (hnotify : e.notify = true) :
      Moves e .takeNotify { e with notify := false, run := .draining }
  | pop (hrun : e.run = .draining) (sub : Subscription)
      (h : e.sub.pump = some sub) :
      Moves e .pop { e with sub := sub, run := .popped }
  | popNothing (hrun : e.run = .draining)
      (h : e.sub.pump = none) : Moves e .pop { e with run := .waiting }
  | wake (i : ℕ) (c : EnqueueCall) (hc : e.calls[i]? = some c)
      (hrun : e.run = .popped) (hphase : c.phase = .waiting) :
      Moves e (.signalSpace (some i)) ({ e with run := .sending }.goto i c .woken)
  | signalSpace (hrun : e.run = .popped) (hparked : e.NoneParked) :
      Moves e (.signalSpace none) { e with run := .sending, space := true }
  | receive (frame : Frame) (hrun : e.run = .sending)
      (hflight : e.sub.inFlight = some frame) :
      Moves e .receive { e with
        sub := { e.sub with inFlight := none }
        run := .sent
        ledger := e.ledger.deliver frame }
  | count (hrun : e.run = .sent) :
      Moves e .count { e with sub := e.sub.countDelivered, run := .draining }
  | stop (hrun : e.run = .waiting ∨ e.run = .sending) :
      Moves e .stop { e with run := .stopped }
  | markClosed : Moves e .markClosed
      { e with sub := { e.sub with closed := true } }
  | closeDone (hclosed : e.sub.closed = true) :
      Moves e .closeDone { e with doneClosed := true }

variable {e e' : Endpoint}

theorem callMoves_of_callStep {i : ℕ} {c : EnqueueCall} {a : CallEvent}
    (h : e.callStep i c a = some e') : CallMoves e i c a e' := by
  cases a with
  | cancel =>
    simp only [callStep] at h
    split at h
    next hphase =>
      cases h
      exact .cancelParked hphase
    next hphase =>
      cases h
      exact .cancel hphase
  | attempt =>
    obtain ⟨hphase, h⟩ := ite_none_right_eq_some.mp h
    cases h
    rw [attempt]
    split
    next hres => exact .done hphase hres
    next hres => exact .block hphase hres
    next sub hres => exact .accept hphase sub hres
  | park =>
    obtain ⟨⟨hphase, hspace, hctx, hdone⟩, h⟩ := ite_none_right_eq_some.mp h
    cases h
    exact .park hphase hspace hctx hdone
  | takeSpace =>
    obtain ⟨⟨hphase, hspace⟩, h⟩ := ite_none_right_eq_some.mp h
    cases h
    exact .takeSpace hphase hspace
  | giveUp =>
    obtain ⟨⟨hphase, hctx⟩, h⟩ := ite_none_right_eq_some.mp h
    cases h
    exact .giveUp hphase hctx
  | seeDone =>
    obtain ⟨⟨hphase, hdone⟩, h⟩ := ite_none_right_eq_some.mp h
    cases h
    exact .seeDone hphase hdone
  | signal =>
    obtain ⟨hphase, h⟩ := ite_none_right_eq_some.mp h
    cases h
    exact .signal hphase

variable {a : EndpointEvent} {options : ValidOptions}

theorem moves_of_step (h : step e a = some e') : Moves e a e' := by
  cases a with
  | preload frames =>
    obtain ⟨⟨hsetup, -⟩, h⟩ := ite_none_right_eq_some.mp h
    cases h
    exact .preload frames hsetup
  | preloadSignal =>
    obtain ⟨hsetup, h⟩ := ite_none_right_eq_some.mp h
    cases h
    exact .preloadSignal hsetup
  | register =>
    obtain ⟨hsetup, h⟩ := ite_none_right_eq_some.mp h
    cases h
    exact .register hsetup
  | call frame ctxDone =>
    obtain ⟨hsetup, h⟩ := ite_none_right_eq_some.mp h
    cases h
    exact .call frame ctxDone hsetup
  | ofCall i a =>
    obtain ⟨c, hc, h⟩ := Option.bind_eq_some_iff.mp h
    exact .ofCall i c a e' hc (callMoves_of_callStep h)
  | takeNotify =>
    obtain ⟨⟨hrun, hnotify⟩, h⟩ := ite_none_right_eq_some.mp h
    cases h
    exact .takeNotify hrun hnotify
  | pop =>
    obtain ⟨⟨hrun, -⟩, h⟩ := ite_none_right_eq_some.mp h
    split at h
    next sub hpump =>
      cases h
      exact .pop hrun sub hpump
    next hpump =>
      cases h
      exact .popNothing hrun hpump
  | signalSpace receiver =>
    rcases receiver with _ | i
    · obtain ⟨⟨hrun, hparked⟩, h⟩ := ite_none_right_eq_some.mp h
      cases h
      exact .signalSpace hrun hparked
    · obtain ⟨c, hc, h⟩ := Option.bind_eq_some_iff.mp h
      obtain ⟨⟨hrun, hphase, -⟩, h⟩ := ite_none_right_eq_some.mp h
      cases h
      exact .wake i c hc hrun hphase
  | receive =>
    obtain ⟨hrun, h⟩ := ite_none_right_eq_some.mp h
    obtain ⟨r, hr, h⟩ := Option.map_eq_some_iff.mp h
    obtain ⟨frame, hflight, heq⟩ := Option.map_eq_some_iff.mp hr
    cases h
    cases heq
    exact .receive frame hrun hflight
  | count =>
    obtain ⟨hrun, h⟩ := ite_none_right_eq_some.mp h
    cases h
    exact .count hrun
  | stop =>
    obtain ⟨⟨hrun, -⟩, h⟩ := ite_none_right_eq_some.mp h
    cases h
    exact .stop hrun
  | markClosed =>
    obtain ⟨-, h⟩ := ite_none_right_eq_some.mp h
    cases h
    exact .markClosed
  | closeDone =>
    obtain ⟨⟨hclosed, -⟩, h⟩ := ite_none_right_eq_some.mp h
    cases h
    exact .closeDone hclosed

theorem Reachable.step (h : e.Reachable options) (hstep : step e a = some e') :
    e'.Reachable options := by
  obtain ⟨id, events, hrun⟩ := h
  refine ⟨id, events ++ [a], ?_⟩
  rw [Machine.run_append, hrun, Option.bind_some]
  exact (Machine.run_cons _).mpr ⟨e', hstep, rfl⟩

theorem Reachable.invariant {I : Endpoint → Prop}
    (h : e.Reachable options) (hnew : ∀ id, I (new id options))
    (hstep : ∀ e a e', e.Reachable options → I e → Moves e a e' → I e') :
    I e := by
  obtain ⟨id, events, hrun⟩ := h
  have hboth : e.Reachable options ∧ I e := by
    refine Machine.run_invariant Endpoint.step (I := fun e => e.Reachable options ∧ I e) ?_ hrun
      ⟨⟨id, [], rfl⟩, hnew id⟩
    rintro e a e' ⟨hreach, he⟩ h
    exact ⟨hreach.step h, hstep e a e' hreach he (moves_of_step h)⟩
  exact hboth.2

theorem Moves.calls_persist (h : Moves e a e') {i : ℕ}
    {c : EnqueueCall} (hi : e.calls[i]? = some c) :
    ∃ c', e'.calls[i]? = some c' ∧ c'.frame = c.frame := by
  -- a call that goes on is replaced by one with the same frame
  have hgoto : ∀ j old new, e.calls[j]? = some old → new.frame = old.frame →
      ∃ c', (e.calls.set j new)[i]? = some c' ∧ c'.frame = c.frame := by
    intro j old new hj hframe
    by_cases hij : i = j
    · subst hij
      obtain rfl := Option.mem_unique hj hi
      exact ⟨new, Entries.getElem?_set_of_getElem? hi new, hframe⟩
    · exact ⟨c, (List.getElem?_set_ne (.symm hij)).trans hi, rfl⟩
  cases h with
  | call frame ctxDone hsetup =>
    refine ⟨c, ?_, rfl⟩
    obtain ⟨hlt, -⟩ := List.getElem?_eq_some_iff.mp hi
    exact (List.getElem?_append_left hlt).trans hi
  | ofCall j old a e' hj hmoves =>
    cases hmoves
    all_goals exact hgoto j old _ hj rfl
  | wake j old hj hrun hphase => exact hgoto j old _ hj rfl
  | _ => exact ⟨c, hi, rfl⟩

end Endpoint

end GoWarp.StreamBus
