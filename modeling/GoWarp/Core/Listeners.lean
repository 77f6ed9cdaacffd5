import GoWarp.Core.Loading
import Mathlib.Data.List.Count

/-!
# The listeners of a Warp

`Register` starts a goroutine for a key in a distributed mode.  The goroutine
subscribes to the bus, and from then on invalidates the key for each event.
`RegisterDynamicTTL` starts no such goroutine, and `Unregister` leaves the
subscription of the key alive.

When every goroutine has subscribed, each key in a distributed mode has one
subscription and no other key has any, as long as no key is put into a
distributed mode by `RegisterDynamicTTL` and no key in a distributed mode is
unregistered.
-/

namespace GoWarp.Core

open Support Support.Program

variable {T : Type}

/-- One of the two modes in which writes are announced on the bus. -/
def Mode.distributed : Mode → Bool
  | .strongLocal => false
  | .eventualDistributed => true
  | .strongDistributed => true

/-- What `RegisterDynamicTTL` stores for a key. -/
def Registration.dynamic (mode : Mode) (hasStrategy : Bool) (ttlOpts : TTLOptions) : Registration :=
  ⟨0, hasStrategy, ttlOpts, mode, 0, zeroInstant, 1⟩

namespace Warp

/-- Write or delete a key of the registration table. -/
def setReg (w : Warp T) (k : Key) (reg : Option Registration) : Warp T :=
  { w with regs := Function.update w.regs k reg }

/-- Put a registration into the table, unless the key has one. -/
def enroll (w : Warp T) (k : Key) (reg : Registration) : Bool × Warp T :=
  match w.regs k with
  | some _ => (false, w)
  | none => (true, w.setReg k (some reg))

/-- The registration table in `Warp.Register`. -/
def register (w : Warp T) (k : Key) (mode : Mode) (ttl : Duration)
    (opts : TTLOptions) : Bool × Warp T :=
  w.enroll k (Registration.new mode ttl opts)

def registerDynamicTTL (w : Warp T) (k : Key) (mode : Mode)
    (hasStrategy : Bool) (opts : TTLOptions) : Bool × Warp T :=
  w.enroll k (Registration.dynamic mode hasStrategy opts)

def unregister (w : Warp T) (k : Key) : Warp T := w.setReg k none

def distributes (w : Warp T) (k : Key) : Bool :=
  match w.regs k with
  | none => false
  | some reg => reg.mode.distributed

variable {w : Warp T} {k : Key}

theorem enroll_of_none (h : w.regs k = none) (reg : Registration) :
    w.enroll k reg = (true, w.setReg k (some reg)) := by
  rw [enroll, h]

theorem enroll_of_some {old : Registration} (h : w.regs k = some old) (reg : Registration) :
    w.enroll k reg = (false, w) := by
  rw [enroll, h]

theorem distributes_of_none (h : w.regs k = none) : w.distributes k = false := by
  rw [distributes, h]

@[simp] theorem hasBus_setReg (w : Warp T) (k : Key)
    (reg : Option Registration) : (w.setReg k reg).hasBus = w.hasBus := rfl

@[simp] theorem distributes_setReg_self (w : Warp T) (k : Key) (reg : Option Registration) :
    (w.setReg k reg).distributes k = (reg.map fun r => r.mode.distributed).getD false := by
  cases reg with
  | none => simp [distributes, setReg]
  | some reg => simp [distributes, setReg]

theorem distributes_setReg_of_ne (w : Warp T) {k k' : Key} (hk : k' ≠ k)
    (reg : Option Registration) :
    (w.setReg k reg).distributes k' = w.distributes k' := by
  simp [distributes, setReg, hk]

/-- The Warps have a bus both or neither, and the same keys in a distributed
mode. -/
def SameModes (w w' : Warp T) : Prop :=
  w'.hasBus = w.hasBus ∧ ∀ k, w'.distributes k = w.distributes k

theorem distributes_touch (w : Warp T) (k k' : Key) (ttl : Duration)
    (now : Instant) : (w.touch k ttl now).distributes k' = w.distributes k' := by
  change (w.setReg k _).distributes k' = _
  by_cases hk : k' = k
  · subst hk
    rw [distributes_setReg_self, distributes]
    cases w.regs k' with
    | none => rfl
    | some reg => rfl
  · exact distributes_setReg_of_ne w hk _

theorem stable_sameModes (w : Warp T) (env : Env) (k : Key) : Stable env k (SameModes w) where
  cacheSet s v ttl hs := by
    rw [cacheSet]
    split
    · exact hs
    · exact hs
  cacheInvalidate s hs := by
    rw [cacheInvalidate]
    split
    · exact hs
    · exact hs
  storeSet _ _ hs := hs
  touch s _ _ ttl now hs _ _ _ :=
    ⟨hs.1, fun k' => (distributes_touch s k k' ttl now).trans (hs.2 k')⟩
  spawn _ _ _ _ hs _ _ _ := hs

theorem sameModes_ensureRegistered (w : Warp T) (k : Key) : w.SameModes (w.ensureRegistered k) := by
  cases hreg : w.regs k with
  | some reg =>
    rw [ensureRegistered, hreg]
    exact ⟨rfl, fun _ => rfl⟩
  | none =>
    rw [ensureRegistered, hreg]
    refine ⟨rfl, fun k' => ?_⟩
    change (w.setReg k (some autoRegistration)).distributes k' = _
    by_cases hk : k' = k
    · -- the registration that `GetOrSet` makes is a local one
      rw [hk, distributes_setReg_self, distributes_of_none hreg]
      rfl
    · exact distributes_setReg_of_ne w hk _

theorem sameModes_getOrSet (w : Warp T) (env : Env) (k : Key)
    (loader : Loader T) : w.SameModes (w.getOrSet env k loader).2 :=
  (stable_sameModes w env k).getOrSet (sameModes_ensureRegistered w k)
    (stable_sameModes w loader.write k)

end Warp

/-! ## Listeners -/

/-- A Warp and its listeners: the goroutines that have not subscribed yet, and
the subscriptions, each by its key. -/
structure Listening (T : Type) where
  warp : Warp T
  starting : List Key
  live : List Key

namespace Listening

/-- A call, or the `Subscribe` of a goroutine. -/
inductive Action (T : Type) where
  | register (k : Key) (mode : Mode) (ttl : Duration) (opts : TTLOptions)
  | registerDynamicTTL (k : Key) (mode : Mode) (hasStrategy : Bool)
      (opts : TTLOptions)
  | getOrSet (env : Env) (k : Key) (loader : Warp.Loader T)
  | unregister (k : Key)
  | listen (k : Key)

/-- `Warp.Register`, with the goroutine it starts. -/
def register (s : Listening T) (k : Key) (mode : Mode) (ttl : Duration)
    (opts : TTLOptions) : Listening T :=
  let (added, w) := s.warp.register k mode ttl opts
  { s with
    warp := w
    starting := if added && mode.distributed && w.hasBus then
      s.starting ++ [k] else s.starting }

/-- `listenForInvalidations` up to its loop. -/
def listen (s : Listening T) (k : Key) : Option (Listening T) :=
  if k ∈ s.starting then
    some { s with starting := s.starting.erase k, live := s.live ++ [k] }
  else
    none

def step : Machine (Listening T) (Action T)
  | s, .register k mode ttl opts => some (s.register k mode ttl opts)
  | s, .registerDynamicTTL k mode hasStrategy opts =>
    some { s with
      warp := (s.warp.registerDynamicTTL k mode hasStrategy opts).2 }
  | s, .getOrSet env k loader =>
    some { s with warp := (s.warp.getOrSet env k loader).2 }
  | s, .unregister k => some { s with warp := s.warp.unregister k }
  | s, .listen k => s.listen k

/-- The state in which every goroutine that has been started has
subscribed. -/
def settled (s : Listening T) : Listening T :=
  { s with starting := [], live := s.live ++ s.starting }

/-- The subscriptions a key should have. -/
def expected (w : Warp T) (k : Key) : ℕ := if w.distributes k then 1 else 0

/-- Every key has the subscriptions it should have. -/
def Tracks (s : Listening T) : Prop := ∀ k, s.live.count k = expected s.warp k

/-- The condition on a step: `RegisterDynamicTTL` puts no key into a
distributed mode, and `Unregister` removes none that is in one. -/
def Follows (s : Listening T) : Action T → Prop
  | .registerDynamicTTL k mode _ _ =>
    s.warp.regs k = none → mode.distributed = false
  | .unregister k => s.warp.distributes k = false
  | _ => True

theorem count_settled (s : Listening T) (k : Key) :
    s.settled.live.count k = s.live.count k + s.starting.count k :=
  List.count_append

theorem tracks_settled_iff (s : Listening T) : s.settled.Tracks ↔
      ∀ k, s.live.count k + s.starting.count k = expected s.warp k :=
  forall_congr' fun k => by rw [count_settled]; rfl

/-! ## Steps -/

variable {s : Listening T} {s' : Listening T}

theorem tracks_settled_of_sameModes (hs : s.settled.Tracks) (hlive : s'.live = s.live)
    (hstarting : s'.starting = s.starting)
    (hmodes : s.warp.SameModes s'.warp) : s'.settled.Tracks := by
  rw [tracks_settled_iff] at hs ⊢
  intro k
  rw [hlive, hstarting, hs k, expected, expected, hmodes.2 k]

theorem tracks_settled_setReg_iff (hs : s.settled.Tracks)
    (k : Key) (reg : Option Registration) {starting : List Key}
    (hother : ∀ k' ≠ k, starting.count k' = s.starting.count k') :
    (⟨s.warp.setReg k reg, starting, s.live⟩ : Listening T).settled.Tracks ↔
      s.live.count k + starting.count k =
        if (reg.map fun r => r.mode.distributed).getD false then 1 else 0 := by
  rw [tracks_settled_iff] at hs ⊢
  dsimp only [expected] at hs ⊢
  constructor
  · intro h
    rw [h k, Warp.distributes_setReg_self]
  · intro h k'
    by_cases hk : k' = k
    · rw [hk, h, Warp.distributes_setReg_self]
    · rw [hother k' hk, hs k', Warp.distributes_setReg_of_ne _ hk]

theorem count_of_none (hs : s.settled.Tracks) {k : Key} (hreg : s.warp.regs k = none) :
    s.live.count k + s.starting.count k = 0 := by
  rw [(tracks_settled_iff s).mp hs k, expected, Warp.distributes_of_none hreg]
  rfl

theorem tracks_settled_register (hbus : s.warp.hasBus = true)
    (hs : s.settled.Tracks) (k : Key) (mode : Mode) (ttl : Duration)
    (opts : TTLOptions) : (s.register k mode ttl opts).settled.Tracks := by
  cases hreg : s.warp.regs k with
  | some reg =>
    rw [register, Warp.register, Warp.enroll_of_some hreg]
    exact hs
  | none =>
    have hnone := count_of_none hs hreg
    rw [register, Warp.register, Warp.enroll_of_none hreg]
    simp only [hbus, Warp.hasBus_setReg, Bool.true_and, Bool.and_true]
    refine (tracks_settled_setReg_iff hs k _ ?_).mpr ?_
    · intro k' hk
      split
      · simp [Ne.symm hk]
      · rfl
    · cases hmode : mode.distributed with
      | false => simpa [Registration.new, hmode] using hnone
      | true => simp [Registration.new, hmode, ← Nat.add_assoc, hnone]

theorem tracks_settled_registerDynamicTTL_iff
    (hs : s.settled.Tracks) (k : Key) (mode : Mode) (hasStrategy : Bool) (opts : TTLOptions) :
    ({ s with
      warp := (s.warp.registerDynamicTTL k mode hasStrategy
        opts).2 } : Listening T).settled.Tracks ↔
      s.Follows (.registerDynamicTTL k mode hasStrategy opts) := by
  cases hreg : s.warp.regs k with
  | some reg =>
    rw [Warp.registerDynamicTTL, Warp.enroll_of_some hreg]
    simp [Follows, hreg, hs]
  | none =>
    rw [Warp.registerDynamicTTL, Warp.enroll_of_none hreg]
    refine (tracks_settled_setReg_iff hs k _ fun _ _ => rfl).trans ?_
    rw [count_of_none hs hreg]
    cases hmode : mode.distributed with
    | false | true => simp [Follows, hreg, Registration.dynamic, hmode]

theorem tracks_settled_unregister_iff (hs : s.settled.Tracks) (k : Key) :
    ({ s with warp := s.warp.unregister k } : Listening T).settled.Tracks ↔
      s.Follows (.unregister k) := by
  refine (tracks_settled_setReg_iff hs k none fun _ _ => rfl).trans ?_
  rw [(tracks_settled_iff s).mp hs k, expected, Follows]
  simp

theorem tracks_settled_listen {k : Key} (hs : s.settled.Tracks) (hlisten : s.listen k = some s') :
    s'.settled.Tracks ∧ s'.warp = s.warp := by
  rw [listen, Option.ite_none_right_eq_some] at hlisten
  obtain ⟨hmem, hs'⟩ := hlisten
  cases hs'
  -- the goroutine moves from one list to the other
  have hperm : (s.live ++ [k] ++ s.starting.erase k).Perm (s.live ++ s.starting) := by
    rw [List.append_assoc]
    exact (List.perm_cons_erase hmem).symm.append_left s.live
  exact ⟨fun k' => (hperm.count_eq k').trans (hs k'), rfl⟩

theorem tracks_settled_step_iff {a : Action T} (hbus : s.warp.hasBus = true) (hs : s.settled.Tracks)
    (hstep : step s a = some s') :
    s'.warp.hasBus = true ∧ (s'.settled.Tracks ↔ s.Follows a) := by
  cases a with
  | register k mode ttl opts =>
    cases hstep
    refine ⟨?_, iff_of_true (tracks_settled_register hbus hs k mode ttl opts)
      trivial⟩
    cases hreg : s.warp.regs k with
    | some reg | none =>
      simp [register, Warp.register, Warp.enroll, hreg, hbus]
  | registerDynamicTTL k mode hasStrategy opts =>
    cases hstep
    refine ⟨?_, tracks_settled_registerDynamicTTL_iff hs k mode _ opts⟩
    cases hreg : s.warp.regs k with
    | some reg | none =>
      simp [Warp.registerDynamicTTL, Warp.enroll, hreg, hbus]
  | getOrSet env k loader =>
    cases hstep
    have hmodes := s.warp.sameModes_getOrSet env k loader
    exact ⟨hmodes.1.trans hbus,
      iff_of_true (tracks_settled_of_sameModes hs rfl rfl hmodes) trivial⟩
  | unregister k =>
    cases hstep
    exact ⟨hbus, tracks_settled_unregister_iff hs k⟩
  | listen k =>
    obtain ⟨htracks, hwarp⟩ := tracks_settled_listen hs hstep
    exact ⟨by rw [hwarp, hbus], iff_of_true htracks trivial⟩

/-! ## Runs -/

def start (w : Warp T) : Listening T := ⟨{ w with regs := fun _ => none, hasBus := true }, [], []⟩

/-- In every state of a run, once its goroutines have subscribed, a key has
one subscription if it is registered in a distributed mode and none
otherwise, exactly if `RegisterDynamicTTL` puts no key into a distributed
mode and `Unregister` removes none that is in one. -/
theorem settled_tracks_iff (w : Warp T) (steps : List (Action T))
    (s : Listening T) (hrun : Machine.run step (start w) steps = some s) :
    (∀ before t, before <+: steps → Machine.run step (start w) before = some t →
        ∀ k, t.settled.live.count k =
          if t.warp.distributes k then 1 else 0) ↔
      Machine.AllSteps step Follows (start w) steps := by
  refine Machine.forall_states_iff_allSteps step
    (I := fun s => s.warp.hasBus = true ∧ s.settled.Tracks) ?_ ?_ ?_ hrun ?_
  · rintro s a s' ⟨hbus, hs⟩ ha hstep
    obtain ⟨hbus', hiff⟩ := tracks_settled_step_iff hbus hs hstep
    exact ⟨hbus', hiff.mpr ha⟩
  · exact fun s hs => hs.2
  · rintro s a s' ⟨hbus, hs⟩ hstep htracks
    exact (tracks_settled_step_iff hbus hs hstep).2.mp htracks
  · exact ⟨rfl, fun _ => rfl⟩

/-- A key put into a distributed mode by `RegisterDynamicTTL`. -/
def unheard : List (Action ℕ) := [.registerDynamicTTL "k" .eventualDistributed true TTLOptions.zero]

/-- A key that is registered, unregistered and registered again. -/
def registeredTwice : List (Action ℕ) :=
  [.register "k" .strongDistributed 60 TTLOptions.zero, .listen "k",
    .unregister "k", .register "k" .strongDistributed 60 TTLOptions.zero]

/-- The first key is in a distributed mode without a subscription, the second
one has a subscription while it is not registered and two when it is
registered again. -/
theorem miscounts_unheard_registeredTwice :
    ((Machine.run step (start Warp.localWarp) unheard).map fun s =>
        (s.warp.distributes "k", s.settled.live.count "k")) = some (true, 0) ∧
      ((Machine.run step (start Warp.localWarp) (registeredTwice.take 3)).map fun s =>
          (s.warp.distributes "k", s.settled.live.count "k")) = some (false, 1) ∧
      ((Machine.run step (start Warp.localWarp) registeredTwice).map fun s =>
        (s.warp.distributes "k", s.settled.live.count "k")) = some (true, 2) := by
  decide

/-- Calls that meet the condition: a key is registered a second time, a local
one by `GetOrSet`, and the local one is unregistered. -/
def heard : List (Action ℕ) :=
  [.register "k" .eventualDistributed 60 TTLOptions.zero,
    .registerDynamicTTL "k" .strongDistributed true TTLOptions.zero,
    .getOrSet Warp.workingEnv "l" ⟨.ok 5, Warp.workingEnv, Warp.workingEnv⟩,
    .listen "k", .unregister "l"]

theorem follows_heard : Machine.AllSteps step Follows (start Warp.localWarp) heard := by
  refine ⟨trivial, ?_⟩
  rintro s ⟨⟩
  -- the key is registered already
  refine ⟨fun h => absurd h (Option.some_ne_none _), ?_⟩
  rintro s ⟨⟩
  refine ⟨trivial, ?_⟩
  rintro s ⟨⟩
  refine ⟨trivial, ?_⟩
  rintro s ⟨⟩
  exact ⟨rfl, fun _ _ => trivial⟩

theorem settled_tracks_heard : ∃ t, Machine.run step (start Warp.localWarp) heard = some t ∧
      t.settled.live.count "k" = if t.warp.distributes "k" then 1 else 0 :=
  ⟨_, rfl, (settled_tracks_iff Warp.localWarp heard _ rfl).mpr follows_heard
    heard _ List.prefix_rfl rfl "k"⟩

end Listening

end GoWarp.Core
