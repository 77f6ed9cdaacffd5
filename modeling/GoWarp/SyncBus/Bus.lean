import GoWarp.Support.Entries
import GoWarp.Support.Transition
import Mathlib.Algebra.Order.Ring.Int

/-!
# The in-memory bus

`InMemoryBus` keeps a list of subscriber channels for each key.  `Publish` and
`PublishAndAwait` mark the key, so that a publish that finds the mark is
merged into the one that set it, send an event to each channel of the key
without waiting, and clear the mark.  Channels have room for one event.

A call of `Publish` or `PublishAndAwait` goes through phases; each step of a
call is one operation on what the calls share: the mark, the lock, a channel.
The bus lock is a read-write lock: a call holds it for reading while it sends,
and `Subscribe` and `Unsubscribe` run while nobody does.
-/

namespace GoWarp.SyncBus

open Support
open Function (update update_of_ne update_self)

abbrev Key := String

/-! ## Events -/

inductive Scope where
  | scopeLocal
  | scopeGlobal
deriving DecidableEq

structure PublishOptions where
  region : String
  vectorClock : String → Option UInt64
  scope : Scope

/-- `PublishOption`, by the function that makes it. -/
inductive PublishOption where
  | withRegion (region : String)
  | withVectorClock (vc : String → Option UInt64)
  | withScope (scope : Scope)

namespace PublishOptions

/-- The zero `PublishOptions`. -/
def zero : PublishOptions := ⟨"", fun _ => none, .scopeLocal⟩

def apply (o : PublishOptions) : PublishOption → PublishOptions
  | .withRegion region => { o with region := region }
  | .withVectorClock vc => { o with vectorClock := vc }
  | .withScope scope => { o with scope := scope }

def ofList (opts : List PublishOption) : PublishOptions := opts.foldl apply zero

end PublishOptions

structure Event where
  key : Key
  region : String
  vectorClock : String → Option UInt64
  scope : Scope

/-- The event of a publish.  The scope of the options is not copied. -/
def Event.new (key : Key) (options : PublishOptions) : Event :=
  ⟨key, options.region, options.vectorClock, .scopeLocal⟩

/-! ## The bus -/

/-- A channel with room for one event; `topic` is the key it was made for,
and `received` counts the events taken out of it. -/
structure Channel where
  topic : Key
  buffer : Option Event
  closed : Bool
  received : ℕ

/-- `make(chan Event, 1)`. -/
def Channel.new (topic : Key) : Channel := ⟨topic, none, false, 0⟩

/-- `InMemoryBus` and its channels.  The mark of a key is the call that set
it, and `readers` are the calls that hold the lock.  Closing a channel twice
and sending to a closed one panic. -/
structure Bus where
  subs : Key → List ℕ
  pending : Key → Option ℕ
  published : ℕ
  delivered : ℕ
  chans : ℕ → Channel
  nextChan : ℕ
  readers : List ℕ
  panicked : Bool

/-- `NewInMemoryBus`. -/
def Bus.new : Bus where
  subs := fun _ => []
  pending := fun _ => none
  published := 0
  delivered := 0
  chans := fun _ => Channel.new ""
  nextChan := 0
  readers := []
  panicked := false

/-- Remove a channel from a list of channels: the last one takes its place. -/
def removeChan (subs : List ℕ) (ch : ℕ) : List ℕ :=
  match subs.getLast? with
  | none => []
  | some last => (subs.set (subs.idxOf ch) last).dropLast

namespace Bus

/-- `Subscribe` under the lock. -/
def subscribe (b : Bus) (key : Key) : Bus :=
  { b with
    subs := update b.subs key (b.subs key ++ [b.nextChan])
    chans := update b.chans b.nextChan (Channel.new key)
    nextChan := b.nextChan + 1 }

/-- `Unsubscribe` under the lock. -/
def unsubscribe (b : Bus) (key : Key) (ch : ℕ) : Bus :=
  if ch ∈ b.subs key then
    { b with
      subs := update b.subs key (removeChan (b.subs key) ch)
      chans := update b.chans ch { b.chans ch with closed := true }
      panicked := b.panicked || (b.chans ch).closed }
  else
    b

/-- A subscriber takes an event out of a channel. -/
def receive (b : Bus) (ch : ℕ) : Option (Event × Bus) :=
  (b.chans ch).buffer.map fun event =>
    (event, { b with
      chans := update b.chans ch { b.chans ch with
        buffer := none
        received := (b.chans ch).received + 1 } })

/-! ### What `Unsubscribe` leaves -/

section Unsubscribe

variable (b : Bus) (key : Key) (c : ℕ)

@[simp] theorem nextChan_unsubscribe : (b.unsubscribe key c).nextChan = b.nextChan := by
  rw [unsubscribe]
  split <;> rfl

@[simp] theorem pending_unsubscribe : (b.unsubscribe key c).pending = b.pending := by
  rw [unsubscribe]
  split <;> rfl

theorem apply_chans_unsubscribe {γ : Type} {f : Channel → γ}
    (hf : ∀ channel closed, f { channel with closed := closed } = f channel)
    (ch : ℕ) : f ((b.unsubscribe key c).chans ch) = f (b.chans ch) := by
  rw [unsubscribe]
  split
  · dsimp only
    by_cases hc : ch = c
    · subst hc
      rw [update_self, hf]
    · rw [update_of_ne hc]
  · rfl

@[simp] theorem topic_unsubscribe (ch : ℕ) :
    ((b.unsubscribe key c).chans ch).topic = (b.chans ch).topic :=
  b.apply_chans_unsubscribe key c (fun _ _ => rfl) ch

@[simp] theorem buffer_unsubscribe (ch : ℕ) :
    ((b.unsubscribe key c).chans ch).buffer = (b.chans ch).buffer :=
  b.apply_chans_unsubscribe key c (fun _ _ => rfl) ch

@[simp] theorem received_unsubscribe (ch : ℕ) :
    ((b.unsubscribe key c).chans ch).received = (b.chans ch).received :=
  b.apply_chans_unsubscribe key c (fun _ _ => rfl) ch

end Unsubscribe

end Bus

/-! ## Calls -/

/-- The errors of a publish; `canceled` is the error of a context. -/
inductive Err where
  | canceled
  | quorumNotSatisfied
deriving DecidableEq

/-- `PublishAndAwaitTopology` is `PublishAndAwait`. -/
inductive Method where
  | publish
  | publishAndAwait (replicas : ℤ)
deriving DecidableEq

/-- The channels a call has to reach. -/
def Method.replicas : Method → ℤ
  | .publish => 0
  | .publishAndAwait replicas => if replicas ≤ 0 then 1 else replicas

/-- What a call does next: look at its context, look for the mark, take the
lock, send to the next channel or give the lock back, clear the mark. -/
inductive Phase where
  | called
  | checked
  | marked
  | sending (rest : List ℕ)
  | clearing (err : Option Err)
  | returned (err : Option Err)
deriving DecidableEq

/-- A call.  `handed` lists the channels it has sent to.  The last four
fields are history: the channels that were subscribed when the call began,
how many events had been received from each, whether the key had no mark then,
and the call that this one was merged into. -/
structure Call where
  method : Method
  key : Key
  options : PublishOptions
  canceled : Bool
  phase : Phase
  handed : List ℕ
  audience : List ℕ
  seen : ℕ → ℕ
  unmarked : Bool
  mergedInto : Option ℕ

namespace Call

def new (b : Bus) (method : Method) (key : Key) (opts : List PublishOption) : Call where
  method := method
  key := key
  options := PublishOptions.ofList opts
  canceled := false
  phase := .called
  handed := []
  audience := b.subs key
  seen := fun ch => (b.chans ch).received
  unmarked := (b.pending key).isNone
  mergedInto := none

/-- The first look at the context. -/
def check (call : Call) : Call :=
  { call with
    phase := if call.canceled then .returned (some .canceled) else .checked }

/-- Set the mark, or return if it is set. -/
def mark (b : Bus) (i : ℕ) (call : Call) : Bus × Call :=
  match b.pending call.key with
  | some j =>
    (b, { call with mergedInto := some j, phase := .returned none })
  | none =>
    ({ b with pending := update b.pending call.key (some i) }, { call with phase := .marked })

/-- Whether there are too few channels to send to, and the error then. -/
def refused (b : Bus) (call : Call) : Option (Option Err) :=
  match call.method with
  | .publish => if b.subs call.key = [] then some none else none
  | .publishAndAwait _ =>
    if ((b.subs call.key).length : ℤ) < call.method.replicas then
      some (some .quorumNotSatisfied)
    else
      none

/-- Take the lock and look up the channels. -/
def enter (b : Bus) (i : ℕ) (call : Call) : Bus × Call :=
  match call.refused b with
  | some err => (b, { call with phase := .clearing err })
  | none =>
    ({ b with
        readers := i :: b.readers
        published := if call.method = .publish then b.published + 1
          else b.published },
      { call with phase := .sending (b.subs call.key) })

/-- Give the lock back, with an error or without. -/
def leave (b : Bus) (i : ℕ) (call : Call) (err : Option Err) : Bus × Call :=
  ({ b with readers := b.readers.erase i }, { call with phase := .clearing err })

/-- Send to the next channel if it has room.  Without room the context is
looked at once more. -/
def send (b : Bus) (i : ℕ) (call : Call) (ch : ℕ) (rest : List ℕ) : Bus × Call :=
  if (b.chans ch).closed then
    ({ b with panicked := true }, { call with phase := .sending rest })
  else if (b.chans ch).buffer.isNone then
    ({ b with
        chans := update b.chans ch { b.chans ch with
          buffer := some (Event.new call.key call.options) }
        delivered := b.delivered + 1 },
      { call with handed := call.handed ++ [ch], phase := .sending rest })
  else if call.canceled then
    call.leave b i (some .canceled)
  else
    (b, { call with phase := .sending rest })

/-- The end of the loop. -/
def finish (b : Bus) (i : ℕ) (call : Call) : Bus × Call :=
  match call.method with
  | .publish => call.leave b i none
  | .publishAndAwait _ =>
    if (call.handed.length : ℤ) < call.method.replicas then
      call.leave b i (some .quorumNotSatisfied)
    else
      call.leave { b with published := b.published + 1 } i none

def clear (b : Bus) (call : Call) (err : Option Err) : Bus × Call :=
  ({ b with pending := update b.pending call.key none }, { call with phase := .returned err })

/-- The next step of a call. -/
def advance (b : Bus) (i : ℕ) (call : Call) : Option (Bus × Call) :=
  match call.phase with
  | .called => some (b, call.check)
  | .checked => some (call.mark b i)
  | .marked => some (call.enter b i)
  | .sending (ch :: rest) => some (call.send b i ch rest)
  | .sending [] => some (call.finish b i)
  | .clearing err => some (call.clear b err)
  | .returned _ => none

/-- A call whose context is done may stop at any channel. -/
def abort (b : Bus) (i : ℕ) (call : Call) : Option (Bus × Call) :=
  match call.phase with
  | .sending (_ :: _) =>
    if call.canceled then some (call.leave b i (some .canceled)) else none
  | _ => none

end Call

/-! ## What a step of a call does -/

inductive Turn (b : Bus) (i : ℕ) (call : Call) : Bus × Call → Prop where
  | rejected (hphase : call.phase = .called) (hcanceled : call.canceled) :
      Turn b i call (b, { call with phase := .returned (some .canceled) })
  | checked (hphase : call.phase = .called) (hcanceled : ¬call.canceled) :
      Turn b i call (b, { call with phase := .checked })
  | merged (j : ℕ) (hphase : call.phase = .checked)
      (hpending : b.pending call.key = some j) :
      Turn b i call (b, { call with mergedInto := some j, phase := .returned none })
  | marked (hphase : call.phase = .checked)
      (hpending : b.pending call.key = none) :
      Turn b i call ({ b with pending := update b.pending call.key (some i) },
          { call with phase := .marked })
  | refused (err : Option Err) (hphase : call.phase = .marked)
      (hrefused : call.refused b = some err) :
      Turn b i call (b, { call with phase := .clearing err })
  | entered (hphase : call.phase = .marked)
      (hrefused : call.refused b = none) :
      Turn b i call ({ b with
            readers := i :: b.readers
            published := if call.method = .publish then b.published + 1
              else b.published },
          { call with phase := .sending (b.subs call.key) })
  | panicked (ch : ℕ) (rest : List ℕ)
      (hphase : call.phase = .sending (ch :: rest))
      (hclosed : (b.chans ch).closed) :
      Turn b i call ({ b with panicked := true }, { call with phase := .sending rest })
  | sent (ch : ℕ) (rest : List ℕ)
      (hphase : call.phase = .sending (ch :: rest))
      (hempty : (b.chans ch).buffer.isNone) :
      Turn b i call ({ b with
            chans := update b.chans ch { b.chans ch with
              buffer := some (Event.new call.key call.options) }
            delivered := b.delivered + 1 },
          { call with handed := call.handed ++ [ch], phase := .sending rest })
  | skipped (ch : ℕ) (rest : List ℕ)
      (hphase : call.phase = .sending (ch :: rest))
      (hfull : (b.chans ch).buffer.isSome) :
      Turn b i call (b, { call with phase := .sending rest })
  | stopped (rest : List ℕ) (hphase : call.phase = .sending rest)
      (hcanceled : call.canceled) :
      Turn b i call (call.leave b i (some .canceled))
  | unsatisfied (hphase : call.phase = .sending []) :
      Turn b i call (call.leave b i (some .quorumNotSatisfied))
  | finished (published : ℕ) (hphase : call.phase = .sending [])
      (hquorum : call.method.replicas ≤ call.handed.length) :
      Turn b i call (call.leave { b with published := published } i none)
  | cleared (err : Option Err) (hphase : call.phase = .clearing err) :
      Turn b i call (call.clear b err)

namespace Call

variable {b : Bus} {i : ℕ} {call : Call}

theorem turn_check (hphase : call.phase = .called) : Turn b i call (b, call.check) := by
  rw [check]
  split
  · rename_i hcanceled
    exact .rejected hphase hcanceled
  · rename_i hcanceled
    exact .checked hphase hcanceled

theorem turn_mark (hphase : call.phase = .checked) : Turn b i call (call.mark b i) := by
  rw [mark]
  split
  · rename_i j hpending
    exact .merged j hphase hpending
  · rename_i hpending
    exact .marked hphase hpending

theorem turn_enter (hphase : call.phase = .marked) : Turn b i call (call.enter b i) := by
  rw [enter]
  split
  · rename_i err hrefused
    exact .refused err hphase hrefused
  · rename_i hrefused
    exact .entered hphase hrefused

theorem turn_send {ch : ℕ} {rest : List ℕ} (hphase : call.phase = .sending (ch :: rest)) :
    Turn b i call (call.send b i ch rest) := by
  rw [send]
  split
  · rename_i hclosed
    exact .panicked ch rest hphase hclosed
  · split
    · rename_i hempty
      exact .sent ch rest hphase hempty
    · rename_i hfull
      split
      · rename_i hcanceled
        exact .stopped _ hphase hcanceled
      · exact .skipped ch rest hphase (Option.isSome_iff_ne_none.mpr fun h => hfull (by simp [h]))

theorem turn_finish (hphase : call.phase = .sending []) : Turn b i call (call.finish b i) := by
  rw [finish]
  split
  · rename_i hmethod
    refine .finished b.published hphase ?_
    rw [hmethod]
    exact Int.natCast_nonneg _
  · split
    · exact .unsatisfied hphase
    · rename_i hquorum
      exact .finished _ hphase (Int.not_lt.mp hquorum)

theorem turn_of_advance {r : Bus × Call} (h : call.advance b i = some r) : Turn b i call r := by
  rw [advance] at h
  split at h
  · cases h
    exact turn_check (by assumption)
  · cases h
    exact turn_mark (by assumption)
  · cases h
    exact turn_enter (by assumption)
  · cases h
    exact turn_send (by assumption)
  · cases h
    exact turn_finish (by assumption)
  · cases h
    exact .cleared _ (by assumption)
  · cases h

theorem abort_eq_some {r : Bus × Call} (h : call.abort b i = some r) :
    ∃ rest, call.phase = .sending rest ∧ call.canceled ∧ r = call.leave b i (some .canceled) := by
  rw [abort] at h
  split at h
  · rename_i hphase
    obtain ⟨hcanceled, hr⟩ := Option.ite_none_right_eq_some.mp h
    exact ⟨_, hphase, hcanceled, (Option.some.inj hr).symm⟩
  · cases h

end Call

/-- What a step of call `i` does not change: the lists of channels, what is
closed, what has been received, the other readers, and what the call is
about.  An event that is buffered stays. -/
structure Frame (b : Bus) (i : ℕ) (call : Call) (r : Bus × Call) : Prop where
  subs : r.1.subs = b.subs
  nextChan : r.1.nextChan = b.nextChan
  closed : ∀ ch, (r.1.chans ch).closed = (b.chans ch).closed
  topic : ∀ ch, (r.1.chans ch).topic = (b.chans ch).topic
  received : ∀ ch, (r.1.chans ch).received = (b.chans ch).received
  buffer : ∀ ch, (b.chans ch).buffer.isSome → (r.1.chans ch).buffer.isSome
  readers : ∀ j ≠ i, j ∈ b.readers → j ∈ r.1.readers
  key : r.2.key = call.key
  method : r.2.method = call.method
  audience : r.2.audience = call.audience
  seen : r.2.seen = call.seen

section Frame

variable {b : Bus} {i : ℕ} {call : Call}

theorem Frame.of_chans {b' : Bus} {call' : Call} (hsubs : b'.subs = b.subs)
    (hnext : b'.nextChan = b.nextChan) (hchans : b'.chans = b.chans)
    (hreaders : ∀ j ≠ i, j ∈ b.readers → j ∈ b'.readers)
    (hkey : call'.key = call.key) (hmethod : call'.method = call.method)
    (haudience : call'.audience = call.audience)
    (hseen : call'.seen = call.seen) : Frame b i call (b', call') where
  subs := hsubs
  nextChan := hnext
  closed ch := by rw [hchans]
  topic ch := by rw [hchans]
  received ch := by rw [hchans]
  buffer ch h := by rwa [hchans]
  readers := hreaders
  key := hkey
  method := hmethod
  audience := haudience
  seen := hseen

theorem Frame.of_phase {call' : Call} (hkey : call'.key = call.key)
    (hmethod : call'.method = call.method) (haudience : call'.audience = call.audience)
    (hseen : call'.seen = call.seen) : Frame b i call (b, call') :=
  .of_chans rfl rfl rfl (fun _ _ h => h) hkey hmethod haudience hseen

theorem Frame.of_leave (published : ℕ) (err : Option Err) :
    Frame b i call (call.leave { b with published := published } i err) :=
  .of_chans rfl rfl rfl (fun _ hj h => (List.mem_erase_of_ne hj).mpr h) rfl rfl
    rfl rfl

theorem Turn.frame {r : Bus × Call} (h : Turn b i call r) : Frame b i call r := by
  cases h with
  | rejected | checked | merged | refused | skipped =>
    exact .of_phase rfl rfl rfl rfl
  | marked | panicked | cleared =>
    exact .of_chans rfl rfl rfl (fun _ _ h => h) rfl rfl rfl rfl
  | entered =>
    exact .of_chans rfl rfl rfl (fun _ _ h => List.mem_cons_of_mem i h) rfl
      rfl rfl rfl
  | sent ch rest =>
    exact {
      subs := rfl
      nextChan := rfl
      closed := fun c => by by_cases hc : c = ch <;> simp [hc]
      topic := fun c => by by_cases hc : c = ch <;> simp [hc]
      received := fun c => by by_cases hc : c = ch <;> simp [hc]
      buffer := fun c => by by_cases hc : c = ch <;> simp [hc]
      readers := fun _ _ h => h
      key := rfl
      method := rfl
      audience := rfl
      seen := rfl }
  | stopped | unsatisfied => exact .of_leave b.published _
  | finished published => exact .of_leave published _

end Frame

/-! ## Runs -/

structure System where
  bus : Bus
  calls : ℕ → Option Call

/-- A step of the system.  `Unsubscribe` is called by a subscriber or, when
its context is done, by a goroutine. -/
inductive Action where
  | call (i : ℕ) (method : Method) (key : Key) (opts : List PublishOption)
  | cancel (i : ℕ)
  | advance (i : ℕ)
  | abort (i : ℕ)
  | subscribe (key : Key)
  | unsubscribe (key : Key) (ch : ℕ)
  | receive (ch : ℕ)

namespace System

def new : System := ⟨Bus.new, fun _ => none⟩

/-- The result of a step of a call. -/
def put (s : System) (i : ℕ) (r : Bus × Call) : System := ⟨r.1, update s.calls i (some r.2)⟩

def step : Machine System Action
  | s, .call i method key opts =>
    if s.calls i = none then
      some (s.put i (s.bus, Call.new s.bus method key opts))
    else
      none
  | s, .cancel i =>
    (s.calls i).map fun call => s.put i (s.bus, { call with canceled := true })
  | s, .advance i =>
    (s.calls i).bind fun call => (call.advance s.bus i).map (s.put i)
  | s, .abort i =>
    (s.calls i).bind fun call => (call.abort s.bus i).map (s.put i)
  | s, .subscribe key =>
    if s.bus.readers = [] then some { s with bus := s.bus.subscribe key }
    else none
  | s, .unsubscribe key ch =>
    if s.bus.readers = [] then
      some { s with bus := s.bus.unsubscribe key ch }
    else
      none
  | s, .receive ch => (s.bus.receive ch).map fun r => { s with bus := r.2 }

inductive Moves (s : System) : Action → System → Prop where
  | call (i : ℕ) (method : Method) (key : Key) (opts : List PublishOption)
      (hfresh : s.calls i = none) :
      Moves s (.call i method key opts) (s.put i (s.bus, Call.new s.bus method key opts))
  | cancel (i : ℕ) (call : Call) (hcall : s.calls i = some call) :
      Moves s (.cancel i) (s.put i (s.bus, { call with canceled := true }))
  | advance (i : ℕ) (call : Call) (r : Bus × Call)
      (hcall : s.calls i = some call) (hturn : Turn s.bus i call r) :
      Moves s (.advance i) (s.put i r)
  | abort (i : ℕ) (call : Call) (rest : List ℕ)
      (hcall : s.calls i = some call) (hphase : call.phase = .sending rest)
      (hcanceled : call.canceled) :
      Moves s (.abort i) (s.put i (call.leave s.bus i (some .canceled)))
  | subscribe (key : Key) (hfree : s.bus.readers = []) :
      Moves s (.subscribe key) { s with bus := s.bus.subscribe key }
  | unsubscribe (key : Key) (ch : ℕ) (hfree : s.bus.readers = []) :
      Moves s (.unsubscribe key ch) { s with bus := s.bus.unsubscribe key ch }
  | receive (ch : ℕ) (r : Event × Bus) (hreceive : s.bus.receive ch = some r) :
      Moves s (.receive ch) { s with bus := r.2 }

theorem moves_of_step {s s' : System} {a : Action} (hstep : step s a = some s') : Moves s a s' := by
  cases a with
  | call i method key opts =>
    obtain ⟨hfresh, hs'⟩ := Option.ite_none_right_eq_some.mp hstep
    cases hs'
    exact .call i method key opts hfresh
  | cancel i =>
    obtain ⟨call, hcall, rfl⟩ := Option.map_eq_some_iff.mp hstep
    exact .cancel i call hcall
  | advance i =>
    obtain ⟨call, hcall, hmap⟩ := Option.bind_eq_some_iff.mp hstep
    obtain ⟨r, hr, rfl⟩ := Option.map_eq_some_iff.mp hmap
    exact .advance i call r hcall (Call.turn_of_advance hr)
  | abort i =>
    obtain ⟨call, hcall, hmap⟩ := Option.bind_eq_some_iff.mp hstep
    obtain ⟨r, hr, rfl⟩ := Option.map_eq_some_iff.mp hmap
    obtain ⟨rest, hphase, hcanceled, rfl⟩ := Call.abort_eq_some hr
    exact .abort i call rest hcall hphase hcanceled
  | subscribe key =>
    obtain ⟨hfree, hs'⟩ := Option.ite_none_right_eq_some.mp hstep
    cases hs'
    exact .subscribe key hfree
  | unsubscribe key ch =>
    obtain ⟨hfree, hs'⟩ := Option.ite_none_right_eq_some.mp hstep
    cases hs'
    exact .unsubscribe key ch hfree
  | receive ch =>
    obtain ⟨r, hr, rfl⟩ := Option.map_eq_some_iff.mp hstep
    exact .receive ch r hr

@[simp] theorem bus_put (s : System) (i : ℕ) (r : Bus × Call) : (s.put i r).bus = r.1 := rfl

@[simp] theorem calls_put_self (s : System) (i : ℕ) (r : Bus × Call) :
    (s.put i r).calls i = some r.2 := update_self _ _ _

theorem calls_put_of_ne (s : System) {i j : ℕ} (hj : j ≠ i) (r : Bus × Call) :
    (s.put i r).calls j = s.calls j := update_of_ne hj _ _

theorem forall_calls_put_iff {P : ℕ → Call → Prop} {s : System} {i : ℕ} {r : Bus × Call} :
    (∀ j call, (s.put i r).calls j = some call → P j call) ↔
      P i r.2 ∧ ∀ j call, j ≠ i → s.calls j = some call → P j call :=
  Entries.forall_update_iff

end System

end GoWarp.SyncBus
