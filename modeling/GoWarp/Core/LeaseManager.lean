import GoWarp.Core.Warp
import GoWarp.SyncBus.Bus

/-!
# The goroutines of a lease

A lease that `Grant` made has an expiry timer, a ticker with a goroutine that
renews the timer, and a goroutine that waits on a channel of the bus for a
revocation.  A placeholder that `Attach` made has the last of these only.  All
of them and the callers of `RevokeLease` run `revoke` for the id of the lease,
which takes whatever lease is in the table under that id.

A step is one operation on what the goroutines share: the mutex with the
table, the bus, a timer, a ticker, a stop channel.  `Attach` holds the mutex
while it subscribes a placeholder.  The bus closes a channel when it is
unsubscribed, and does that by itself when the context of the subscription is
done; a receive from a closed channel returns like a receive of an event.

Leases are numbered in the order they are made.  The causes of a revocation
and the table that was current when an event was sent are history: the code
does not look at them.
-/

namespace GoWarp.Core

open Support
open Option (bind_eq_some_iff ite_none_right_eq_some map_eq_some_iff)

variable {T : Type}

namespace LeaseManager

def leaseKey (id : String) : SyncBus.Key := "lease:" ++ id

/-- Where a lease is: just made, subscribed or found to have failed at that,
in the table, or removed from it. -/
inductive Stage where
  | made
  | subscribed
  | inside
  | outside
deriving DecidableEq

/-- The goroutine that renews the timer: it waits for a tick, has received one,
or has returned. -/
inductive Renewal where
  | waiting
  | ticked
  | done
deriving DecidableEq

/-- `lease`.  `timer` and `ticker` say whether they run, `stopped` whether
`stop` is closed, and `watching` whether a goroutine waits for a
revocation. -/
structure Lease where
  id : String
  keys : List Key
  granted : Bool
  timer : Bool
  ticker : Bool
  renewal : Renewal
  stopped : Bool
  sub : Option ℕ
  watching : Bool
  stage : Stage
deriving DecidableEq

namespace Lease

/-- The lease of `Grant`, before it is subscribed. -/
def grant (id : String) : Lease where
  id := id
  keys := []
  granted := true
  timer := true
  ticker := true
  renewal := .waiting
  stopped := false
  sub := none
  watching := false
  stage := .made

/-- The placeholder of `Attach`, before it is subscribed. -/
def placeholder (id : String) (key : Key) : Lease where
  id := id
  keys := [key]
  granted := false
  timer := false
  ticker := false
  renewal := .done
  stopped := false
  sub := none
  watching := false
  stage := .made

end Lease

/-- Why `revoke` is run: a call of `RevokeLease`, the timer of a lease, an
event, with the lease that was in the table under the id when it was sent, or
a channel that was closed. -/
inductive Cause where
  | call
  | timer (e : ℕ)
  | event (e : ℕ) (entry : Option ℕ)
  | closed (e : ℕ)
deriving DecidableEq

/-- The lease whose goroutine or timer runs `revoke`. -/
def Cause.lease : Cause → Option ℕ
  | .call => none
  | .timer e => some e
  | .event e _ => some e
  | .closed e => some e

inductive Phase where
  | lookup
  | stopTimer (e : ℕ)
  | stopTicker (e : ℕ)
  | closeStop (e : ℕ)
  | unsubscribe (e : ℕ)
  | invalidate (e : ℕ) (keys : List Key)
  | publish (e : ℕ)
  | done
deriving DecidableEq

/-- The lease that has been removed. -/
def Phase.removed : Phase → Option ℕ
  | .lookup => none
  | .stopTimer e => some e
  | .stopTicker e => some e
  | .closeStop e => some e
  | .unsubscribe e => some e
  | .invalidate e _ => some e
  | .publish e => some e
  | .done => none

structure Revocation where
  id : String
  publish : Bool
  cause : Cause
  phase : Phase
deriving DecidableEq

end LeaseManager

/-- `LeaseManager` with its bus and cache.  `holder` is the placeholder whose
`Attach` holds the mutex; `sent` is the table when the last event was sent to
a channel. -/
structure LeaseManager (T : Type) where
  net : SyncBus.System
  leases : String → Option ℕ
  objects : ℕ → Option LeaseManager.Lease
  next : ℕ
  holder : Option ℕ
  revocations : List LeaseManager.Revocation
  sent : ℕ → String → Option ℕ
  cache : Cache T

namespace LeaseManager

/-- A step: of `Grant`, which draws an id (`grant`, `subscribe`, `insert`); of
`Attach` (`attach`, and `subscribe` and `insert` for a placeholder); of the
ticker, the timer and the two goroutines of a lease; of a goroutine in
`revoke`, among them one that a call of `RevokeLease` begins.  `cancel` is the
end of the context of a `Grant`, `refuse` a call that fails because the
context of a `RevokeLease` is done, and `net` a step of somebody else on the
bus. -/
inductive Action where
  | grant (id : String)
  | attach (id : String) (key : Key)
  | subscribe (e : ℕ) (ok : Bool)
  | insert (e : ℕ)
  | tick (e : ℕ)
  | renew (e : ℕ)
  | stopRenewing (e : ℕ)
  | fire (e : ℕ)
  | wake (e : ℕ)
  | stopWatching (e : ℕ)
  | cancel (e : ℕ)
  | revoke (id : String)
  | advance (i : ℕ)
  | publish (i : ℕ) (call : ℕ)
  | refuse (i : ℕ)
  | net (a : SyncBus.Action)

def new (cache : Cache T) : LeaseManager T where
  net := SyncBus.System.new
  leases := fun _ => none
  objects := fun _ => none
  next := 0
  holder := none
  revocations := []
  sent := fun _ _ => none
  cache := cache

section Parts

variable (s : LeaseManager T)

def add (l : Lease) : LeaseManager T :=
  { s with
    objects := Function.update s.objects s.next (some l)
    next := s.next + 1 }

def modify (e : ℕ) (f : Lease → Lease) : LeaseManager T :=
  { s with objects := Function.update s.objects e ((s.objects e).map f) }

/-- Put a lease into the table and give the mutex back. -/
def enter (e : ℕ) (id : String) : LeaseManager T :=
  { s with
    leases := Function.update s.leases id (some e)
    holder := none }

/-- Delete an id from the table. -/
def delete (id : String) : LeaseManager T := { s with leases := Function.update s.leases id none }

/-- A goroutine begins `revoke`. -/
def spawn (id : String) (publish : Bool) (cause : Cause) : LeaseManager T :=
  { s with revocations := s.revocations ++ [⟨id, publish, cause, .lookup⟩] }

/-- A goroutine in `revoke` goes on. -/
def goOn (i : ℕ) (r : Revocation) (phase : Phase) : LeaseManager T :=
  { s with revocations := s.revocations.set i { r with phase := phase } }

/-- The bus has taken a step.  A channel that got an event gets the table
noted. -/
def heard (net : SyncBus.System) : LeaseManager T :=
  { s with
    net := net
    sent := fun ch =>
      if (s.net.bus.chans ch).buffer.isNone ∧ (net.bus.chans ch).buffer.isSome then s.leases
      else s.sent ch }

variable {s} in
theorem sent_heard_of_none {net : SyncBus.System} {ch : ℕ}
    (hempty : (s.net.bus.chans ch).buffer = none) (hbuffer : (net.bus.chans ch).buffer.isSome) :
    (s.heard net).sent ch = s.leases :=
  if_pos ⟨Option.isNone_iff_eq_none.mpr hempty, hbuffer⟩

variable {s} in
theorem sent_heard_of_some {net : SyncBus.System} {ch : ℕ}
    (hbuffer : (s.net.bus.chans ch).buffer ≠ none) :
    (s.heard net).sent ch = s.sent ch :=
  if_neg fun h => hbuffer (Option.isNone_iff_eq_none.mp h.1)

def onNet (a : SyncBus.Action) : Option (LeaseManager T) :=
  (SyncBus.System.step s.net a).map s.heard

/-- A step of the timer, the ticker or a goroutine of a lease. -/
def act (e : ℕ) (ready : Lease → Prop) [DecidablePred ready]
    (f : Lease → Lease) : Option (LeaseManager T) :=
  (s.objects e).bind fun l => if ready l then some (s.modify e f) else none

/-- Nobody has used the id. -/
def Fresh (id : String) : Prop := ∀ e < s.next, (s.objects e).map Lease.id ≠ some id

instance (id : String) : Decidable (s.Fresh id) := inferInstanceAs (Decidable (∀ e < s.next, _))

/-- The steps on the bus that are not taken by the goroutines of a lease. -/
def Foreign : SyncBus.Action → Prop
  | .unsubscribe _ ch | .receive ch =>
    ∀ e < s.next, (s.objects e).bind Lease.sub ≠ some ch
  | .call .. | .cancel _ | .advance _ | .abort _ | .subscribe _ => True

instance : DecidablePred s.Foreign
  | .unsubscribe .. => inferInstanceAs (Decidable (∀ e < s.next, _))
  | .receive _ => inferInstanceAs (Decidable (∀ e < s.next, _))
  | .call .. | .cancel _ | .advance _ | .abort _ | .subscribe _ => isTrue trivial

end Parts

/-! ## Steps -/

section Steps

variable (s : LeaseManager T)

/-- `Attach`.  A placeholder is made under the mutex. -/
def attach (id : String) (key : Key) : Option (LeaseManager T) :=
  if s.holder = none then
    match s.leases id with
    | some e => some (s.modify e fun l => { l with keys := key :: l.keys })
    | none =>
      some { s.add (.placeholder id key) with holder := some s.next }
  else
    none

/-- `SubscribeLease`, and the goroutine that waits for a revocation.  It fails
when the context is done; a placeholder has the background context. -/
def subscribe (e : ℕ) (ok : Bool) : Option (LeaseManager T) :=
  (s.objects e).bind fun l =>
    if l.stage = .made ∧ (ok = true ∨ l.granted = true) then
      if ok then
        (s.onNet (.subscribe (leaseKey l.id))).map fun s' =>
          s'.modify e fun l => { l with
            sub := some s.net.bus.nextChan
            watching := true
            stage := .subscribed }
      else
        some (s.modify e fun l => { l with stage := .subscribed })
    else
      none

/-- The lease is put into the table: under the mutex that `Attach` holds, or
`Grant` takes it. -/
def insert (e : ℕ) : Option (LeaseManager T) :=
  (s.objects e).bind fun l =>
    if l.stage = .subscribed ∧ s.holder = if l.granted then none else some e then
      some ((s.modify e fun l => { l with stage := .inside }).enter e l.id)
    else
      none

def fire (e : ℕ) : Option (LeaseManager T) :=
  (s.objects e).bind fun l =>
    if l.timer then
      some ((s.spawn l.id true (.timer e)).modify e fun l =>
        { l with timer := false })
    else
      none

/-- The receive of the waiting goroutine returns. -/
def wake (e : ℕ) : Option (LeaseManager T) :=
  (s.objects e).bind fun l => l.sub.bind fun ch =>
    if l.watching then
      if (s.net.bus.chans ch).buffer.isSome then
        (s.onNet (.receive ch)).map fun s' =>
          (s'.spawn l.id false (.event e (s.sent ch l.id))).modify e fun l =>
            { l with watching := false }
      else if (s.net.bus.chans ch).closed then
        some ((s.spawn l.id false (.closed e)).modify e fun l =>
          { l with watching := false })
      else
        none
    else
      none

/-- The context of a `Grant` is done, and the bus unsubscribes the lease. -/
def cancel (e : ℕ) : Option (LeaseManager T) :=
  (s.objects e).bind fun l => l.sub.bind fun ch =>
    if l.granted then s.onNet (.unsubscribe (leaseKey l.id) ch) else none

/-- The lookup of `revoke`, under the mutex. -/
def lookup (i : ℕ) (r : Revocation) : Option (LeaseManager T) :=
  if s.holder = none then
    match s.leases r.id with
    | none => some (s.goOn i r .done)
    | some e =>
      some (((s.modify e fun l => { l with stage := .outside }).delete
        r.id).goOn i r (.stopTimer e))
  else
    none

/-- `UnsubscribeLease`. -/
def unsubscribe (i : ℕ) (r : Revocation) (e : ℕ) : Option (LeaseManager T) :=
  (s.objects e).bind fun l =>
    match l.sub with
    | none => some (s.goOn i r (.invalidate e l.keys))
    | some ch =>
      (s.onNet (.unsubscribe (leaseKey r.id) ch)).map fun s' => s'.goOn i r (.invalidate e l.keys)

/-- The next step of a goroutine in `revoke`, up to the publication. -/
def advance (i : ℕ) (r : Revocation) : Option (LeaseManager T) :=
  match r.phase with
  | .lookup => s.lookup i r
  | .stopTimer e =>
    some ((s.modify e fun l => { l with timer := false }).goOn i r (.stopTicker e))
  | .stopTicker e =>
    some ((s.modify e fun l => { l with ticker := false }).goOn i r (.closeStop e))
  | .closeStop e =>
    some ((s.modify e fun l => { l with stopped := true }).goOn i r (.unsubscribe e))
  | .unsubscribe e => s.unsubscribe i r e
  | .invalidate e (key :: keys) =>
    some ({ s with cache := s.cache.invalidate key }.goOn i r (.invalidate e keys))
  | .invalidate e [] =>
    some (s.goOn i r (if r.publish then .publish e else .done))
  | .publish _ | .done => none

/-- `RevokeLease` of the bus begins to publish. -/
def publish (i : ℕ) (r : Revocation) (call : ℕ) : Option (LeaseManager T) :=
  match r.phase with
  | .publish _ =>
    (s.onNet (.call call .publish (leaseKey r.id) [])).map fun s' =>
      s'.goOn i r .done
  | _ => none

/-- `Invalidate` and `RevokeLease` fail when the context is done. -/
def refuse (i : ℕ) (r : Revocation) : Option (LeaseManager T) :=
  if r.cause = .call then
    match r.phase with
    | .invalidate e (_ :: keys) => some (s.goOn i r (.invalidate e keys))
    | .publish _ => some (s.goOn i r .done)
    | _ => none
  else
    none

end Steps

def step (s : LeaseManager T) : Action → Option (LeaseManager T)
  | .grant id => if s.Fresh id then some (s.add (.grant id)) else none
  | .attach id key => s.attach id key
  | .subscribe e ok => s.subscribe e ok
  | .insert e => s.insert e
  | .tick e => s.act e (fun l => l.ticker ∧ l.renewal = .waiting) fun l =>
    { l with renewal := .ticked }
  | .renew e => s.act e (fun l => l.renewal = .ticked) fun l =>
    { l with renewal := .waiting, timer := true }
  | .stopRenewing e =>
    s.act e (fun l => l.renewal = .waiting ∧ l.stopped) fun l =>
      { l with renewal := .done }
  | .fire e => s.fire e
  | .wake e => s.wake e
  | .stopWatching e => s.act e (fun l => l.watching ∧ l.stopped) fun l =>
    { l with watching := false }
  | .cancel e => s.cancel e
  | .revoke id => some (s.spawn id true .call)
  | .advance i => s.revocations[i]?.bind fun r => s.advance i r
  | .publish i call => s.revocations[i]?.bind fun r => s.publish i r call
  | .refuse i => s.revocations[i]?.bind fun r => s.refuse i r
  | .net a => if s.Foreign a then s.onNet a else none

def machine (T : Type) : Machine (LeaseManager T) Action := step

/-! ## What a step does -/

inductive Moves (s : LeaseManager T) : Action → LeaseManager T → Prop where
  | granted (id : String) (hfresh : s.Fresh id) :
      Moves s (.grant id) (s.add (.grant id))
  | attached (id : String) (key : Key) (e : ℕ) (hentry : s.leases id = some e) :
      Moves s (.attach id key) (s.modify e fun l => { l with keys := key :: l.keys })
  | placed (id : String) (key : Key) (hfree : s.holder = none)
      (hentry : s.leases id = none) :
      Moves s (.attach id key) { s.add (.placeholder id key) with holder := some s.next }
  | subscribed (e : ℕ) (l : Lease) (net : SyncBus.System)
      (hl : s.objects e = some l) (hmade : l.stage = .made)
      (hnet : SyncBus.System.step s.net (.subscribe (leaseKey l.id)) = some net) :
      Moves s (.subscribe e true) ((s.heard net).modify e fun l => { l with
        sub := some s.net.bus.nextChan
        watching := true
        stage := .subscribed })
  | failed (e : ℕ) (l : Lease) (hl : s.objects e = some l)
      (hmade : l.stage = .made) :
      Moves s (.subscribe e false) (s.modify e fun l => { l with stage := .subscribed })
  | inserted (e : ℕ) (l : Lease) (hl : s.objects e = some l)
      (hstage : l.stage = .subscribed)
      (hholder : s.holder = if l.granted then none else some e) :
      Moves s (.insert e) ((s.modify e fun l => { l with stage := .inside }).enter e l.id)
  | ticked (e : ℕ) (l : Lease) (hl : s.objects e = some l)
      (hwaiting : l.renewal = .waiting) :
      Moves s (.tick e) (s.modify e fun l => { l with renewal := .ticked })
  | renewed (e : ℕ) (l : Lease) (hl : s.objects e = some l)
      (hticked : l.renewal = .ticked) :
      Moves s (.renew e) (s.modify e fun l => { l with renewal := .waiting, timer := true })
  | renewalStopped (e : ℕ) (l : Lease) (hl : s.objects e = some l)
      (hstopped : l.stopped = true) :
      Moves s (.stopRenewing e) (s.modify e fun l => { l with renewal := .done })
  | fired (e : ℕ) (l : Lease) (hl : s.objects e = some l)
      (htimer : l.timer = true) :
      Moves s (.fire e) ((s.spawn l.id true (.timer e)).modify e fun l =>
        { l with timer := false })
  | woken (e : ℕ) (l : Lease) (ch : ℕ) (net : SyncBus.System)
      (hl : s.objects e = some l) (hsub : l.sub = some ch)
      (hwatching : l.watching = true)
      (hbuffer : (s.net.bus.chans ch).buffer.isSome)
      (hnet : SyncBus.System.step s.net (.receive ch) = some net) :
      Moves s (.wake e) (((s.heard net).spawn l.id false
        (.event e (s.sent ch l.id))).modify e fun l =>
          { l with watching := false })
  | closed (e : ℕ) (l : Lease) (ch : ℕ) (hl : s.objects e = some l)
      (hsub : l.sub = some ch) (hwatching : l.watching = true)
      (hclosed : (s.net.bus.chans ch).closed = true) :
      Moves s (.wake e) ((s.spawn l.id false (.closed e)).modify e fun l =>
        { l with watching := false })
  | watchStopped (e : ℕ) (l : Lease) (hl : s.objects e = some l) :
      Moves s (.stopWatching e) (s.modify e fun l => { l with watching := false })
  | canceled (e : ℕ) (l : Lease) (ch : ℕ) (net : SyncBus.System)
      (hl : s.objects e = some l) (hsub : l.sub = some ch)
      (hnet : SyncBus.System.step s.net (.unsubscribe (leaseKey l.id) ch) = some net) :
      Moves s (.cancel e) (s.heard net)
  | called (id : String) : Moves s (.revoke id) (s.spawn id true .call)
  | missed (i : ℕ) (r : Revocation) (hr : s.revocations[i]? = some r)
      (hphase : r.phase = .lookup) (hentry : s.leases r.id = none) :
      Moves s (.advance i) (s.goOn i r .done)
  | removed (i : ℕ) (r : Revocation) (e : ℕ)
      (hr : s.revocations[i]? = some r) (hphase : r.phase = .lookup)
      (hentry : s.leases r.id = some e) :
      Moves s (.advance i) (((s.modify e fun l => { l with stage := .outside }).delete r.id).goOn
          i r (.stopTimer e))
  | timerStopped (i : ℕ) (r : Revocation) (e : ℕ)
      (hr : s.revocations[i]? = some r) (hphase : r.phase = .stopTimer e) :
      Moves s (.advance i) ((s.modify e fun l => { l with timer := false }).goOn i r
          (.stopTicker e))
  | tickerStopped (i : ℕ) (r : Revocation) (e : ℕ)
      (hr : s.revocations[i]? = some r) (hphase : r.phase = .stopTicker e) :
      Moves s (.advance i) ((s.modify e fun l => { l with ticker := false }).goOn i r
          (.closeStop e))
  | stopClosed (i : ℕ) (r : Revocation) (e : ℕ)
      (hr : s.revocations[i]? = some r) (hphase : r.phase = .closeStop e) :
      Moves s (.advance i) ((s.modify e fun l => { l with stopped := true }).goOn i r
          (.unsubscribe e))
  | notSubscribed (i : ℕ) (r : Revocation) (e : ℕ) (l : Lease)
      (hr : s.revocations[i]? = some r) (hphase : r.phase = .unsubscribe e) :
      Moves s (.advance i) (s.goOn i r (.invalidate e l.keys))
  | unsubscribed (i : ℕ) (r : Revocation) (e : ℕ) (l : Lease) (ch : ℕ)
      (net : SyncBus.System) (hr : s.revocations[i]? = some r)
      (hphase : r.phase = .unsubscribe e) (hl : s.objects e = some l)
      (hsub : l.sub = some ch)
      (hnet : SyncBus.System.step s.net (.unsubscribe (leaseKey r.id) ch) = some net) :
      Moves s (.advance i) ((s.heard net).goOn i r (.invalidate e l.keys))
  | invalidated (i : ℕ) (r : Revocation) (e : ℕ) (key : Key)
      (keys : List Key) (hr : s.revocations[i]? = some r)
      (hphase : r.phase = .invalidate e (key :: keys)) :
      Moves s (.advance i) ({ s with cache := s.cache.invalidate key }.goOn i r
          (.invalidate e keys))
  | invalidatedAll (i : ℕ) (r : Revocation) (e : ℕ)
      (hr : s.revocations[i]? = some r) (hphase : r.phase = .invalidate e []) :
      Moves s (.advance i) (s.goOn i r (if r.publish then .publish e else .done))
  | published (i : ℕ) (r : Revocation) (e call : ℕ) (net : SyncBus.System)
      (hr : s.revocations[i]? = some r) (hphase : r.phase = .publish e)
      (hnet : SyncBus.System.step s.net (.call call .publish (leaseKey r.id) []) = some net) :
      Moves s (.publish i call) ((s.heard net).goOn i r .done)
  | keyRefused (i : ℕ) (r : Revocation) (e : ℕ) (key : Key) (keys : List Key)
      (hr : s.revocations[i]? = some r)
      (hphase : r.phase = .invalidate e (key :: keys)) :
      Moves s (.refuse i) (s.goOn i r (.invalidate e keys))
  | publishRefused (i : ℕ) (r : Revocation) (e : ℕ)
      (hr : s.revocations[i]? = some r) (hphase : r.phase = .publish e) :
      Moves s (.refuse i) (s.goOn i r .done)
  | net (a : SyncBus.Action) (net : SyncBus.System) (hforeign : s.Foreign a)
      (hnet : SyncBus.System.step s.net a = some net) :
      Moves s (.net a) (s.heard net)

section Moves

variable {s s' : LeaseManager T}

theorem moves_of_attach {id : String} {key : Key}
    (h : s.attach id key = some s') : Moves s (.attach id key) s' := by
  obtain ⟨hfree, h⟩ := ite_none_right_eq_some.mp h
  split at h
  next e hentry =>
    cases h
    exact .attached id key e hentry
  next hentry =>
    cases h
    exact .placed id key hfree hentry

theorem moves_of_subscribe {e : ℕ} {ok : Bool}
    (h : s.subscribe e ok = some s') : Moves s (.subscribe e ok) s' := by
  obtain ⟨l, hl, h⟩ := bind_eq_some_iff.mp h
  obtain ⟨⟨hmade, -⟩, h⟩ := ite_none_right_eq_some.mp h
  cases ok with
  | true =>
    obtain ⟨s₁, hs₁, rfl⟩ := map_eq_some_iff.mp h
    obtain ⟨net, hnet, rfl⟩ := map_eq_some_iff.mp hs₁
    exact .subscribed e l net hl hmade hnet
  | false =>
    cases h
    exact .failed e l hl hmade

theorem moves_of_wake {e : ℕ} (h : s.wake e = some s') : Moves s (.wake e) s' := by
  obtain ⟨l, hl, h⟩ := bind_eq_some_iff.mp h
  obtain ⟨ch, hsub, h⟩ := bind_eq_some_iff.mp h
  obtain ⟨hwatching, h⟩ := ite_none_right_eq_some.mp h
  split at h
  · rename_i hbuffer
    obtain ⟨s₁, hs₁, rfl⟩ := map_eq_some_iff.mp h
    obtain ⟨net, hnet, rfl⟩ := map_eq_some_iff.mp hs₁
    exact .woken e l ch net hl hsub hwatching hbuffer hnet
  · obtain ⟨hclosed, h⟩ := ite_none_right_eq_some.mp h
    cases h
    exact .closed e l ch hl hsub hwatching hclosed

theorem moves_of_advance {i : ℕ} {r : Revocation}
    (hr : s.revocations[i]? = some r) (h : s.advance i r = some s') :
    Moves s (.advance i) s' := by
  rw [advance] at h
  split at h
  · rename_i hphase
    obtain ⟨-, h⟩ := ite_none_right_eq_some.mp h
    split at h
    next hentry =>
      cases h
      exact .missed i r hr hphase hentry
    next e hentry =>
      cases h
      exact .removed i r e hr hphase hentry
  · rename_i e hphase
    cases h
    exact .timerStopped i r e hr hphase
  · rename_i e hphase
    cases h
    exact .tickerStopped i r e hr hphase
  · rename_i e hphase
    cases h
    exact .stopClosed i r e hr hphase
  · rename_i e hphase
    obtain ⟨l, hl, h⟩ := bind_eq_some_iff.mp h
    split at h
    · cases h
      exact .notSubscribed i r e l hr hphase
    next ch hsub =>
      obtain ⟨s₁, hs₁, rfl⟩ := map_eq_some_iff.mp h
      obtain ⟨net, hnet, rfl⟩ := map_eq_some_iff.mp hs₁
      exact .unsubscribed i r e l ch net hr hphase hl hsub hnet
  · rename_i e key keys hphase
    cases h
    exact .invalidated i r e key keys hr hphase
  · rename_i e hphase
    cases h
    exact .invalidatedAll i r e hr hphase
  · cases h
  · cases h

theorem moves_of_refuse {i : ℕ} {r : Revocation}
    (hr : s.revocations[i]? = some r) (h : s.refuse i r = some s') :
    Moves s (.refuse i) s' := by
  obtain ⟨-, h⟩ := ite_none_right_eq_some.mp h
  split at h
  · rename_i e key keys hphase
    cases h
    exact .keyRefused i r e key keys hr hphase
  · rename_i e hphase
    cases h
    exact .publishRefused i r e hr hphase
  · cases h

theorem act_eq_some {e : ℕ} {ready : Lease → Prop} [DecidablePred ready]
    {f : Lease → Lease} (h : s.act e ready f = some s') :
    ∃ l, s.objects e = some l ∧ ready l ∧ s' = s.modify e f := by
  obtain ⟨l, hl, h⟩ := bind_eq_some_iff.mp h
  obtain ⟨hready, h⟩ := ite_none_right_eq_some.mp h
  exact ⟨l, hl, hready, (Option.some.inj h).symm⟩

theorem moves_of_step {a : Action} (h : s.step a = some s') : Moves s a s' := by
  cases a with
  | grant id =>
    obtain ⟨hfresh, h⟩ := ite_none_right_eq_some.mp h
    cases h
    exact .granted id hfresh
  | attach id key => exact moves_of_attach h
  | subscribe e ok => exact moves_of_subscribe h
  | insert e =>
    obtain ⟨l, hl, h⟩ := bind_eq_some_iff.mp h
    obtain ⟨⟨hstage, hholder⟩, h⟩ := ite_none_right_eq_some.mp h
    cases h
    exact .inserted e l hl hstage hholder
  | tick e =>
    obtain ⟨l, hl, ⟨-, hwaiting⟩, rfl⟩ := act_eq_some h
    exact .ticked e l hl hwaiting
  | renew e =>
    obtain ⟨l, hl, hticked, rfl⟩ := act_eq_some h
    exact .renewed e l hl hticked
  | stopRenewing e =>
    obtain ⟨l, hl, ⟨-, hstopped⟩, rfl⟩ := act_eq_some h
    exact .renewalStopped e l hl hstopped
  | fire e =>
    obtain ⟨l, hl, h⟩ := bind_eq_some_iff.mp h
    obtain ⟨htimer, h⟩ := ite_none_right_eq_some.mp h
    cases h
    exact .fired e l hl htimer
  | wake e => exact moves_of_wake h
  | stopWatching e =>
    obtain ⟨l, hl, -, rfl⟩ := act_eq_some h
    exact .watchStopped e l hl
  | cancel e =>
    obtain ⟨l, hl, h⟩ := bind_eq_some_iff.mp h
    obtain ⟨ch, hsub, h⟩ := bind_eq_some_iff.mp h
    obtain ⟨-, h⟩ := ite_none_right_eq_some.mp h
    obtain ⟨net, hnet, rfl⟩ := map_eq_some_iff.mp h
    exact .canceled e l ch net hl hsub hnet
  | revoke id =>
    cases h
    exact .called id
  | advance i =>
    obtain ⟨r, hr, h⟩ := bind_eq_some_iff.mp h
    exact moves_of_advance hr h
  | publish i call =>
    obtain ⟨r, hr, h⟩ := bind_eq_some_iff.mp h
    rw [publish] at h
    split at h
    · rename_i e hphase
      obtain ⟨s₁, hs₁, rfl⟩ := map_eq_some_iff.mp h
      obtain ⟨net, hnet, rfl⟩ := map_eq_some_iff.mp hs₁
      exact .published i r e call net hr hphase hnet
    · cases h
  | refuse i =>
    obtain ⟨r, hr, h⟩ := bind_eq_some_iff.mp h
    exact moves_of_refuse hr h
  | net a =>
    obtain ⟨hforeign, h⟩ := ite_none_right_eq_some.mp h
    obtain ⟨net, hnet, rfl⟩ := map_eq_some_iff.mp h
    exact .net a net hforeign hnet

end Moves

end LeaseManager

end GoWarp.Core
