import GoWarp.Lock.Memory
import GoWarp.SyncBus.InFlight

/-!
# Lockers on one bus

Any number of instances of the in-memory locker share an in-memory bus.
Goroutines call `TryLock`, `Acquire` and `Release` for one key, and each
instance has two listeners once it has subscribed to the topics of the key.

A goroutine goes from place to place; a step is one critical section, one
operation on the bus, or a wait that is over.  The calls of `Publish` are
calls of the bus that take their own steps.
-/

namespace GoWarp.Lock

open Support
open Option (bind_eq_some_iff ite_none_right_eq_some map_eq_some_iff)

/-! ## Instances and goroutines -/

/-- An instance with its listeners: their channels, which exist once the
instance has subscribed, and whether they have received an event and not
handled it yet.  `taken` is history: the publish of the `TryLock` that has
taken the lock and has not been followed by a `Release`. -/
structure Node where
  locker : InMemory
  lockCh : Option ℕ
  unlockCh : Option ℕ
  lockHand : Bool
  unlockHand : Bool
  taken : Option ℕ

def Node.new : Node := ⟨InMemory.new, none, none, false, false, none⟩

/-- What a call returns: `TryLock` and `Acquire` with the lock, without it, or
with an error; `Release` always returns nil. -/
inductive Result where
  | locked
  | refused
  | failed
  | released
deriving DecidableEq

/-- Where a goroutine is: in the loop of `Acquire` before it subscribes; in
`ensureSubscriptions`; before it looks at the table; while its publish is
under way; while `Acquire` waits for an unlock event; before it cancels its
subscription, to return or to go on with the loop. -/
inductive Place where
  | subscribe
  | ensure
  | subscribeLock
  | subscribeUnlock
  | look
  | publishing (c : ℕ)
  | waiting
  | leaving (next : Option Result)
  | releasing (c : ℕ)
  | returned (result : Result)
deriving DecidableEq

/-- A goroutine of an instance; `channel` is the subscription of
`Acquire`. -/
structure Thread where
  node : ℕ
  acquiring : Bool
  channel : Option ℕ
  place : Place

structure Cluster where
  net : SyncBus.System
  nodes : ℕ → Node
  threads : ℕ → Option Thread

/-- A step: a call, the next step of a goroutine, the end of the context of an
`Acquire` for the call itself and for its subscription, a step of a publish,
or a step of a listener.  The number `c` is the one of the publish, if the
step begins one. -/
inductive ClusterAction where
  | tryLock (t n : ℕ)
  | acquire (t n : ℕ)
  | release (t n c : ℕ)
  | advance (t c : ℕ)
  | giveUp (t : ℕ)
  | unsubscribe (t : ℕ)
  | advanceCall (c : ℕ)
  | abortCall (c : ℕ)
  | cancelCall (c : ℕ)
  | receiveLock (n : ℕ)
  | onLock (n : ℕ)
  | receiveUnlock (n : ℕ)
  | onUnlock (n : ℕ)
deriving DecidableEq

namespace Cluster

def new : Cluster := ⟨SyncBus.System.new, fun _ => Node.new, fun _ => none⟩

/-- The publish `c` has returned. -/
def Published (s : Cluster) (c : ℕ) : Prop :=
  match s.net.calls c with
  | some call => call.phase.Done
  | none => False

instance (s : Cluster) (c : ℕ) : Decidable (s.Published c) :=
  match h : s.net.calls c with
  | some call => decidable_of_iff call.phase.Done (by rw [Published, h])
  | none => isFalse (by rw [Published, h]; exact id)

/-- A `TryLock` of the instance has returned true, and `Release` has not been
called since. -/
def Holds (s : Cluster) (n : ℕ) : Prop :=
  match (s.nodes n).taken with
  | some c => s.Published c
  | none => False

instance (s : Cluster) (n : ℕ) : Decidable (s.Holds n) :=
  match h : (s.nodes n).taken with
  | some c => decidable_of_iff (s.Published c) (by rw [Holds, h])
  | none => isFalse (by rw [Holds, h]; exact id)

/-! ## Steps -/

def setNode (s : Cluster) (n : ℕ) (node : Node) : Cluster :=
  { s with nodes := Function.update s.nodes n node }

def setThread (s : Cluster) (t : ℕ) (thread : Thread) : Cluster :=
  { s with threads := Function.update s.threads t (some thread) }

def goto (s : Cluster) (t : ℕ) (thread : Thread) (place : Place) : Cluster :=
  s.setThread t { thread with place := place }

@[simp] theorem nodes_setNode_self (s : Cluster) (n : ℕ) (node : Node) :
    (s.setNode n node).nodes n = node :=
  Function.update_self ..

theorem nodes_setNode_of_ne (s : Cluster) {n m : ℕ} (hm : m ≠ n)
    (node : Node) : (s.setNode n node).nodes m = s.nodes m :=
  Function.update_of_ne hm ..

theorem apply_nodes_setNode {γ : Type} (f : Node → γ) {s : Cluster} {n : ℕ}
    {node : Node} (hf : f node = f (s.nodes n)) (m : ℕ) :
    f ((s.setNode n node).nodes m) = f (s.nodes m) := by
  by_cases hm : m = n
  · rw [hm, nodes_setNode_self, hf]
  · rw [nodes_setNode_of_ne s hm]

def onNet (s : Cluster) (a : SyncBus.Action) : Option Cluster :=
  (SyncBus.System.step s.net a).map fun net => { s with net := net }

variable (key : Key)

/-- `Release`, of an instance that holds the lock. -/
def release (s : Cluster) (t n c : ℕ) : Option Cluster :=
  match (s.nodes n).locker.release key with
  | some l =>
    (s.onNet (.call c .publish (unlockTopic key) [])).map fun s' =>
      (s'.setNode n { s.nodes n with locker := l, taken := none }).setThread
        t ⟨n, false, none, .releasing c⟩
  | none =>
    some ((s.setNode n { s.nodes n with taken := none }).setThread t
      ⟨n, false, none, .returned .released⟩)

/-- The section of `TryLock`, and the beginning of its publish. -/
def look (s : Cluster) (t c : ℕ) (thread : Thread) : Option Cluster :=
  let node := s.nodes thread.node
  match node.locker.tryLock key none with
  | some l =>
    (s.onNet (.call c .publish (lockTopic key) [])).map fun s' =>
      (s'.setNode thread.node { node with locker := l, taken := some c }).goto t thread
          (.publishing c)
  | none => some (s.goto t thread (if thread.acquiring then .waiting else .returned .refused))

/-- `Acquire` receives an unlock event, or finds its channel closed. -/
def wait (s : Cluster) (t : ℕ) (thread : Thread) (ch : ℕ) : Option Cluster :=
  if (s.net.bus.chans ch).closed ∧ (s.net.bus.chans ch).buffer.isNone then
    some (s.goto t thread (.leaving none))
  else
    (s.onNet (.receive ch)).map fun s' => s'.goto t thread (.leaving none)

/-- `ensureSubscriptions` up to its first `Subscribe`. -/
def ensure (s : Cluster) (t : ℕ) (thread : Thread) : Cluster :=
  let node := s.nodes thread.node
  match node.locker.reserve key with
  | some l =>
    (s.setNode thread.node { node with locker := l }).goto t thread .subscribeLock
  | none => s.goto t thread .look

/-- The next step of a goroutine. -/
def advance (s : Cluster) (t c : ℕ) (thread : Thread) : Option Cluster :=
  let node := s.nodes thread.node
  match thread.place with
  | .subscribe =>
    (s.onNet (.subscribe (unlockTopic key))).map fun s' =>
      s'.setThread t { thread with
        channel := some s.net.bus.nextChan
        place := .ensure }
  | .ensure => some (s.ensure key t thread)
  | .subscribeLock =>
    (s.onNet (.subscribe (lockTopic key))).map fun s' =>
      (s'.setNode thread.node { node with lockCh := some s.net.bus.nextChan }).goto t thread
          .subscribeUnlock
  | .subscribeUnlock =>
    (s.onNet (.subscribe (unlockTopic key))).map fun s' =>
      (s'.setNode thread.node { node with unlockCh := some s.net.bus.nextChan }).goto t thread .look
  | .look => s.look key t c thread
  | .publishing c' =>
    if s.Published c' then
      some (s.goto t thread (if thread.acquiring then .leaving (some .locked)
        else .returned .locked))
    else
      none
  | .waiting => thread.channel.bind (s.wait t thread)
  | .leaving next =>
    thread.channel.bind fun ch =>
      (s.onNet (.unsubscribe (unlockTopic key) ch)).map fun s' =>
        s'.goto t thread (match next with
          | some result => .returned result
          | none => .subscribe)
  | .releasing c' =>
    if s.Published c' then some (s.goto t thread (.returned .released))
    else none
  | .returned _ => none

/-- The context of an `Acquire` is done when it subscribes or waits. -/
def giveUp (s : Cluster) (t : ℕ) (thread : Thread) : Option Cluster :=
  match thread.place with
  | .subscribe => some (s.goto t thread (.returned .failed))
  | .waiting => some (s.goto t thread (.leaving (some .failed)))
  | _ => none

/-- A listener receives an event.  Both listeners start after the second
`Subscribe`. -/
def receiveLock (s : Cluster) (n : ℕ) : Option Cluster :=
  if (s.nodes n).lockHand ∨ (s.nodes n).unlockCh = none then none
  else
    (s.nodes n).lockCh.bind fun ch =>
      (s.onNet (.receive ch)).map fun s' => s'.setNode n { s.nodes n with lockHand := true }

def receiveUnlock (s : Cluster) (n : ℕ) : Option Cluster :=
  if (s.nodes n).unlockHand then none
  else
    (s.nodes n).unlockCh.bind fun ch =>
      (s.onNet (.receive ch)).map fun s' => s'.setNode n { s.nodes n with unlockHand := true }

/-- A listener handles the event it has received. -/
def onLock (s : Cluster) (n : ℕ) : Option Cluster :=
  if (s.nodes n).lockHand then
    some (s.setNode n { s.nodes n with
      locker := (s.nodes n).locker.onLock key
      lockHand := false })
  else
    none

def onUnlock (s : Cluster) (n : ℕ) : Option Cluster :=
  if (s.nodes n).unlockHand then
    some (s.setNode n { s.nodes n with
      locker := (s.nodes n).locker.onUnlock key
      unlockHand := false })
  else
    none

/-- The steps for one key.  `Release` is called by an instance that holds the
lock. -/
def step : Machine Cluster ClusterAction
  | s, .tryLock t n =>
    if s.threads t = none then
      some (s.setThread t ⟨n, false, none, .ensure⟩)
    else
      none
  | s, .acquire t n =>
    if s.threads t = none then
      some (s.setThread t ⟨n, true, none, .subscribe⟩)
    else
      none
  | s, .release t n c =>
    if s.threads t = none ∧ s.Holds n then s.release key t n c else none
  | s, .advance t c => (s.threads t).bind (s.advance key t c)
  | s, .giveUp t => (s.threads t).bind (s.giveUp t)
  | s, .unsubscribe t =>
    ((s.threads t).bind Thread.channel).bind fun ch =>
      s.onNet (.unsubscribe (unlockTopic key) ch)
  | s, .advanceCall c => s.onNet (.advance c)
  | s, .abortCall c => s.onNet (.abort c)
  | s, .cancelCall c => s.onNet (.cancel c)
  | s, .receiveLock n => s.receiveLock n
  | s, .onLock n => s.onLock key n
  | s, .receiveUnlock n => s.receiveUnlock n
  | s, .onUnlock n => s.onUnlock key n

/-! ## What a step does -/

/-- The steps that can be taken; those of a goroutine go by its place. -/
inductive Moves (s : Cluster) : ClusterAction → Cluster → Prop where
  | tryLock (t n : ℕ) :
      Moves s (.tryLock t n) (s.setThread t ⟨n, false, none, .ensure⟩)
  | acquire (t n : ℕ) :
      Moves s (.acquire t n) (s.setThread t ⟨n, true, none, .subscribe⟩)
  | release (t n c : ℕ) (l : InMemory) (net : SyncBus.System)
      (hholds : s.Holds n) (hl : (s.nodes n).locker.release key = some l)
      (hnet : SyncBus.System.step s.net (.call c .publish (unlockTopic key) []) = some net) :
      Moves s (.release t n c) ((({ s with net := net } : Cluster).setNode n
          { s.nodes n with locker := l, taken := none }).setThread t ⟨n, false, none, .releasing c⟩)
  | releaseNothing (t n c : ℕ) (hholds : s.Holds n) :
      Moves s (.release t n c) ((s.setNode n { s.nodes n with taken := none }).setThread t
          ⟨n, false, none, .returned .released⟩)
  | subscribe (t c : ℕ) (thread : Thread) (net : SyncBus.System)
      (ht : s.threads t = some thread) (hplace : thread.place = .subscribe)
      (hnet : SyncBus.System.step s.net (.subscribe (unlockTopic key)) = some net) :
      Moves s (.advance t c) (({ s with net := net } : Cluster).setThread t { thread with
          channel := some s.net.bus.nextChan
          place := .ensure })
  | reserve (t c : ℕ) (thread : Thread) (l : InMemory)
      (ht : s.threads t = some thread) (hplace : thread.place = .ensure)
      (hl : (s.nodes thread.node).locker.reserve key = some l) :
      Moves s (.advance t c) ((s.setNode thread.node
          { s.nodes thread.node with locker := l }).goto t thread .subscribeLock)
  | ensured (t c : ℕ) (thread : Thread) (ht : s.threads t = some thread)
      (hplace : thread.place = .ensure) :
      Moves s (.advance t c) (s.goto t thread .look)
  | subscribeLock (t c : ℕ) (thread : Thread) (net : SyncBus.System)
      (ht : s.threads t = some thread) (hplace : thread.place = .subscribeLock)
      (hnet : SyncBus.System.step s.net (.subscribe (lockTopic key)) = some net) :
      Moves s (.advance t c) ((({ s with net := net } : Cluster).setNode thread.node
          { s.nodes thread.node with
            lockCh := some s.net.bus.nextChan }).goto t thread .subscribeUnlock)
  | subscribeUnlock (t c : ℕ) (thread : Thread) (net : SyncBus.System)
      (ht : s.threads t = some thread)
      (hplace : thread.place = .subscribeUnlock)
      (hnet : SyncBus.System.step s.net (.subscribe (unlockTopic key)) = some net) :
      Moves s (.advance t c) ((({ s with net := net } : Cluster).setNode thread.node
          { s.nodes thread.node with
            unlockCh := some s.net.bus.nextChan }).goto t thread .look)
  | lock (t c : ℕ) (thread : Thread) (l : InMemory) (net : SyncBus.System)
      (ht : s.threads t = some thread) (hplace : thread.place = .look)
      (hl : (s.nodes thread.node).locker.tryLock key none = some l)
      (hnet : SyncBus.System.step s.net (.call c .publish (lockTopic key) []) = some net) :
      Moves s (.advance t c) ((({ s with net := net } : Cluster).setNode thread.node
          { s.nodes thread.node with locker := l, taken := some c }).goto t thread (.publishing c))
  | refuse (t c : ℕ) (thread : Thread) (ht : s.threads t = some thread)
      (hplace : thread.place = .look)
      (hl : (s.nodes thread.node).locker.tryLock key none = none) :
      Moves s (.advance t c) (s.goto t thread
          (if thread.acquiring then .waiting else .returned .refused))
  | published (t c c' : ℕ) (thread : Thread) (ht : s.threads t = some thread)
      (hplace : thread.place = .publishing c') :
      Moves s (.advance t c) (s.goto t thread (if thread.acquiring then .leaving (some .locked)
          else .returned .locked))
  | closed (t c ch : ℕ) (thread : Thread) (ht : s.threads t = some thread)
      (hplace : thread.place = .waiting) (hch : thread.channel = some ch) :
      Moves s (.advance t c) (s.goto t thread (.leaving none))
  | receive (t c ch : ℕ) (thread : Thread) (net : SyncBus.System)
      (ht : s.threads t = some thread) (hplace : thread.place = .waiting)
      (hch : thread.channel = some ch)
      (hnet : SyncBus.System.step s.net (.receive ch) = some net) :
      Moves s (.advance t c) (({ s with net := net } : Cluster).goto t thread (.leaving none))
  | leave (t c ch : ℕ) (thread : Thread) (next : Option Result)
      (place : Place) (net : SyncBus.System) (ht : s.threads t = some thread)
      (hplace : thread.place = .leaving next) (hch : thread.channel = some ch)
      (hnext : place = .subscribe ∨ ∃ result, place = .returned result)
      (hnet : SyncBus.System.step s.net (.unsubscribe (unlockTopic key) ch) = some net) :
      Moves s (.advance t c) (({ s with net := net } : Cluster).goto t thread place)
  | released (t c c' : ℕ) (thread : Thread) (ht : s.threads t = some thread)
      (hplace : thread.place = .releasing c') :
      Moves s (.advance t c) (s.goto t thread (.returned .released))
  | giveUp (t : ℕ) (thread : Thread) (place : Place)
      (ht : s.threads t = some thread) :
      Moves s (.giveUp t) (s.goto t thread place)
  | unsubscribe (t ch : ℕ) (thread : Thread) (net : SyncBus.System)
      (ht : s.threads t = some thread) (hch : thread.channel = some ch)
      (hnet : SyncBus.System.step s.net (.unsubscribe (unlockTopic key) ch) = some net) :
      Moves s (.unsubscribe t) { s with net := net }
  | advanceCall (c : ℕ) (net : SyncBus.System)
      (hnet : SyncBus.System.step s.net (.advance c) = some net) :
      Moves s (.advanceCall c) { s with net := net }
  | abortCall (c : ℕ) (net : SyncBus.System)
      (hnet : SyncBus.System.step s.net (.abort c) = some net) :
      Moves s (.abortCall c) { s with net := net }
  | cancelCall (c : ℕ) (net : SyncBus.System)
      (hnet : SyncBus.System.step s.net (.cancel c) = some net) :
      Moves s (.cancelCall c) { s with net := net }
  | receiveLock (n ch : ℕ) (net : SyncBus.System)
      (hch : (s.nodes n).lockCh = some ch)
      (hnet : SyncBus.System.step s.net (.receive ch) = some net) :
      Moves s (.receiveLock n) (({ s with net := net } : Cluster).setNode n
          { s.nodes n with lockHand := true })
  | onLock (n : ℕ) :
      Moves s (.onLock n) (s.setNode n { s.nodes n with
        locker := (s.nodes n).locker.onLock key
        lockHand := false })
  | receiveUnlock (n ch : ℕ) (net : SyncBus.System)
      (hch : (s.nodes n).unlockCh = some ch)
      (hnet : SyncBus.System.step s.net (.receive ch) = some net) :
      Moves s (.receiveUnlock n) (({ s with net := net } : Cluster).setNode n
          { s.nodes n with unlockHand := true })
  | onUnlock (n : ℕ) (hhand : (s.nodes n).unlockHand = true) :
      Moves s (.onUnlock n) (s.setNode n { s.nodes n with
        locker := (s.nodes n).locker.onUnlock key
        unlockHand := false })

section Moves

variable {key} {s s' : Cluster}

theorem onNet_map_eq_some {a : SyncBus.Action} {f : Cluster → Cluster}
    (h : (s.onNet a).map f = some s') :
    ∃ net, SyncBus.System.step s.net a = some net ∧ f { s with net := net } = s' := by
  obtain ⟨s₁, hs₁, hf⟩ := map_eq_some_iff.mp h
  obtain ⟨net, hnet, rfl⟩ := map_eq_some_iff.mp hs₁
  exact ⟨net, hnet, hf⟩

theorem moves_of_release {t n c : ℕ} (hholds : s.Holds n)
    (h : s.release key t n c = some s') : Moves key s (.release t n c) s' := by
  rw [release] at h
  split at h
  next l hl =>
    obtain ⟨net, hnet, rfl⟩ := onNet_map_eq_some h
    exact .release t n c l net hholds hl hnet
  · cases h
    exact .releaseNothing t n c hholds

variable {thread : Thread}

theorem moves_of_look {t c : ℕ} (ht : s.threads t = some thread) (hplace : thread.place = .look)
    (h : s.look key t c thread = some s') : Moves key s (.advance t c) s' := by
  rw [look] at h
  split at h
  next l hl =>
    obtain ⟨net, hnet, rfl⟩ := onNet_map_eq_some h
    exact .lock t c thread l net ht hplace hl hnet
  next hl =>
    cases h
    exact .refuse t c thread ht hplace hl

theorem moves_of_wait {t c ch : ℕ}
    (ht : s.threads t = some thread) (hplace : thread.place = .waiting)
    (hch : thread.channel = some ch) (h : s.wait t thread ch = some s') :
    Moves key s (.advance t c) s' := by
  rw [wait] at h
  split at h
  · cases h
    exact .closed t c ch thread ht hplace hch
  · obtain ⟨net, hnet, rfl⟩ := onNet_map_eq_some h
    exact .receive t c ch thread net ht hplace hch hnet

theorem moves_of_advance {t c : ℕ} (ht : s.threads t = some thread)
    (h : s.advance key t c thread = some s') :
    Moves key s (.advance t c) s' := by
  rw [advance] at h
  cases hplace : thread.place with
  | subscribe =>
    rw [hplace] at h
    obtain ⟨net, hnet, rfl⟩ := onNet_map_eq_some h
    exact .subscribe t c thread net ht hplace hnet
  | ensure =>
    rw [hplace] at h
    cases h
    rw [ensure]
    cases hl : (s.nodes thread.node).locker.reserve key with
    | some l => exact .reserve t c thread l ht hplace hl
    | none => exact .ensured t c thread ht hplace
  | subscribeLock =>
    rw [hplace] at h
    obtain ⟨net, hnet, rfl⟩ := onNet_map_eq_some h
    exact .subscribeLock t c thread net ht hplace hnet
  | subscribeUnlock =>
    rw [hplace] at h
    obtain ⟨net, hnet, rfl⟩ := onNet_map_eq_some h
    exact .subscribeUnlock t c thread net ht hplace hnet
  | look =>
    rw [hplace] at h
    exact moves_of_look ht hplace h
  | publishing c' =>
    rw [hplace] at h
    obtain ⟨-, h⟩ := ite_none_right_eq_some.mp h
    cases h
    exact .published t c c' thread ht hplace
  | waiting =>
    rw [hplace] at h
    obtain ⟨ch, hch, h⟩ := bind_eq_some_iff.mp h
    exact moves_of_wait ht hplace hch h
  | leaving next =>
    rw [hplace] at h
    obtain ⟨ch, hch, h⟩ := bind_eq_some_iff.mp h
    obtain ⟨net, hnet, rfl⟩ := onNet_map_eq_some h
    refine .leave t c ch thread next _ net ht hplace hch ?_ hnet
    cases next with
    | none => exact .inl rfl
    | some result => exact .inr ⟨result, rfl⟩
  | releasing c' =>
    rw [hplace] at h
    obtain ⟨-, h⟩ := ite_none_right_eq_some.mp h
    cases h
    exact .released t c c' thread ht hplace
  | returned result =>
    rw [hplace] at h
    cases h

theorem moves_of_giveUp {t : ℕ} (ht : s.threads t = some thread) (h : s.giveUp t thread = some s') :
    Moves key s (.giveUp t) s' := by
  rw [giveUp] at h
  split at h
  · cases h
    exact .giveUp t thread _ ht
  · cases h
    exact .giveUp t thread _ ht
  · cases h

theorem moves_of_step {a : ClusterAction} (h : step key s a = some s') : Moves key s a s' := by
  cases a with
  | tryLock t n =>
    obtain ⟨-, h⟩ := ite_none_right_eq_some.mp h
    cases h
    exact .tryLock t n
  | acquire t n =>
    obtain ⟨-, h⟩ := ite_none_right_eq_some.mp h
    cases h
    exact .acquire t n
  | release t n c =>
    obtain ⟨⟨-, hholds⟩, h⟩ := ite_none_right_eq_some.mp h
    exact moves_of_release hholds h
  | advance t c =>
    obtain ⟨thread, ht, h⟩ := bind_eq_some_iff.mp h
    exact moves_of_advance ht h
  | giveUp t =>
    obtain ⟨thread, ht, h⟩ := bind_eq_some_iff.mp h
    exact moves_of_giveUp ht h
  | unsubscribe t =>
    obtain ⟨ch, hch, h⟩ := bind_eq_some_iff.mp h
    obtain ⟨thread, ht, hch⟩ := bind_eq_some_iff.mp hch
    obtain ⟨net, hnet, rfl⟩ := map_eq_some_iff.mp h
    exact .unsubscribe t ch thread net ht hch hnet
  | advanceCall c =>
    obtain ⟨net, hnet, rfl⟩ := map_eq_some_iff.mp h
    exact .advanceCall c net hnet
  | abortCall c =>
    obtain ⟨net, hnet, rfl⟩ := map_eq_some_iff.mp h
    exact .abortCall c net hnet
  | cancelCall c =>
    obtain ⟨net, hnet, rfl⟩ := map_eq_some_iff.mp h
    exact .cancelCall c net hnet
  | receiveLock n =>
    obtain ⟨-, h⟩ := Option.ite_none_left_eq_some.mp h
    obtain ⟨ch, hch, h⟩ := bind_eq_some_iff.mp h
    obtain ⟨net, hnet, rfl⟩ := onNet_map_eq_some h
    exact .receiveLock n ch net hch hnet
  | onLock n =>
    obtain ⟨-, h⟩ := ite_none_right_eq_some.mp h
    cases h
    exact .onLock n
  | receiveUnlock n =>
    obtain ⟨-, h⟩ := Option.ite_none_left_eq_some.mp h
    obtain ⟨ch, hch, h⟩ := bind_eq_some_iff.mp h
    obtain ⟨net, hnet, rfl⟩ := onNet_map_eq_some h
    exact .receiveUnlock n ch net hch hnet
  | onUnlock n =>
    obtain ⟨hhand, h⟩ := ite_none_right_eq_some.mp h
    cases h
    exact .onUnlock n hhand

end Moves

end Cluster

end GoWarp.Lock
