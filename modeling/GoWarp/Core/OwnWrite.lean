import GoWarp.Core.Node
import GoWarp.SyncBus.Bus

/-!
# A writer and its own events

Warps without a store share an in-memory bus, with a key registered in
`ModeEventualDistributed` on each of them.  One node calls `Set`, its
goroutines publish, and the listeners of all nodes invalidate what they have
cached when an event arrives.

The bus does not tell the nodes apart, so the writer hears its own events.
What a `Set` has written stays if its clock reading is later than what it found
cached, and if no other call writes and the listener handles no event after it
has written.
-/

namespace GoWarp.Core

open Support
open Function (update update_of_ne update_self update_apply)

variable {T : Type}

/-- `listenForInvalidations` of a node: its channel, once it has subscribed,
and the event that it has received and not handled yet. -/
structure Listener where
  channel : Option ℕ
  hand : Option SyncBus.Event

def Listener.new : Listener := ⟨none, none⟩

/-- Node 0 is the writer, and `unpublished` counts the goroutines of its `Set`
calls that have not begun to publish. -/
structure Fleet (T : Type) where
  net : SyncBus.System
  nodes : ℕ → System T
  listeners : ℕ → Listener
  unpublished : ℕ

/-- A step: of a call on the writer, of a publish, or of a listener. -/
inductive FleetAction (T : Type) where
  | work (a : Action T)
  | publish (c : ℕ)
  | advanceCall (c : ℕ)
  | abortCall (c : ℕ)
  | cancelCall (c : ℕ)
  | subscribe (n : ℕ)
  | receive (n : ℕ)
  | handle (n : ℕ)

namespace Fleet

def onNet (s : Fleet T) (a : SyncBus.Action) : Option (Fleet T) :=
  (SyncBus.System.step s.net a).map fun net => { s with net := net }

def setListener (s : Fleet T) (n : ℕ) (l : Listener) : Fleet T :=
  { s with listeners := update s.listeners n l }

variable (k : Key)

/-- A step of a call on the writer.  The last one of a `Set` starts the
goroutine that publishes. -/
def work (s : Fleet T) (a : Action T) : Option (Fleet T) :=
  (System.writers k (s.nodes 0) a).map fun node =>
    { s with
      nodes := update s.nodes 0 node
      unpublished :=
        match a with
        | .touch _ => s.unpublished + 1
        | _ => s.unpublished }

/-- A goroutine of a `Set` begins its publish. -/
def publish (s : Fleet T) (c : ℕ) : Option (Fleet T) :=
  if 0 < s.unpublished then
    (s.onNet (.call c .publish k [])).map fun s' =>
      { s' with unpublished := s.unpublished - 1 }
  else
    none

def subscribe (s : Fleet T) (n : ℕ) : Option (Fleet T) :=
  match (s.listeners n).channel with
  | none =>
    (s.onNet (.subscribe k)).map fun s' =>
      s'.setListener n ⟨some s.net.bus.nextChan, none⟩
  | some _ => none

/-- A listener takes an event out of its channel. -/
def receive (s : Fleet T) (n : ℕ) : Option (Fleet T) :=
  match s.listeners n with
  | ⟨some ch, none⟩ =>
    (s.onNet (.receive ch)).map fun s' =>
      s'.setListener n ⟨some ch, (s.net.bus.chans ch).buffer⟩
  | _ => none

/-- A listener invalidates the key of the event it has received. -/
def handle (s : Fleet T) (n : ℕ) : Option (Fleet T) :=
  match (s.listeners n).hand with
  | some event =>
    some ({ s with
      nodes := update s.nodes n ((s.nodes n).hear event.key)
      }.setListener n ⟨(s.listeners n).channel, none⟩)
  | none => none

/-- The steps of the nodes and the bus. -/
def step : Machine (Fleet T) (FleetAction T)
  | s, .work a => s.work k a
  | s, .publish c => s.publish k c
  | s, .advanceCall c => s.onNet (.advance c)
  | s, .abortCall c => s.onNet (.abort c)
  | s, .cancelCall c => s.onNet (.cancel c)
  | s, .subscribe n => s.subscribe k n
  | s, .receive n => s.receive n
  | s, .handle n => s.handle n

/-- The value of the last `Set` of a run. -/
def lastSet (steps : List (FleetAction T)) : Option T :=
  (steps.filterMap fun a =>
    match a with
    | .work (.call _ (.set v)) => some v
    | _ => none).getLast?

/-- Every node has the key registered in `ModeEventualDistributed`, no store
and nothing cached for the key, and nothing has happened yet. -/
structure Start (s : Fleet T) : Prop where
  net : s.net = SyncBus.System.new
  registered : ∀ n, ∃ reg, (s.nodes n).warp.regs k = some reg ∧ reg.mode = .eventualDistributed
  storeless : ∀ n, (s.nodes n).warp.storeKind = .absent
  empty : ∀ n, (s.nodes n).warp.cache k = none
  idle : ∀ n i, (s.nodes n).threads i = .idle
  listeners : ∀ n, s.listeners n = Listener.new
  unpublished : s.unpublished = 0

/-- All calls have returned, and all publishes and events have been
processed. -/
structure Settled (s : Fleet T) : Prop where
  returned : ∀ n i, ((s.nodes n).threads i).inCall = false
  unpublished : s.unpublished = 0
  published : ∀ c call, s.net.calls c = some call → ∃ err, call.phase = .returned err
  received : ∀ n ch, (s.listeners n).channel = some ch → (s.net.bus.chans ch).buffer.isNone
  handled : ∀ n, (s.listeners n).hand.isNone

end Fleet

/-! ## How a Set comes through -/

namespace Phase

/-- The `Set` has written the cache. -/
def Wrote : Phase T → Prop
  | .setCached _ _ _ => True
  | .setStored _ _ => True
  | .returned => True
  | _ => False

/-- How far a `Set` of `v` has come: it is going to write `v`, or has written
and the cache has `v`. -/
def Pursues (v : T) (cached : Option (CacheEntry T)) : Phase T → Prop
  | .setCalled value => value = v
  | .setTimed value _ => value = v
  | .setMerged newVal _ => newVal.data = v
  | .setCached _ _ _ => ∃ entry, cached = some entry ∧ entry.value.data = v
  | .setStored _ _ => ∃ entry, cached = some entry ∧ entry.value.data = v
  | .returned => ∃ entry, cached = some entry ∧ entry.value.data = v
  | _ => False

theorem Pursues.of_not_wrote {v : T} {cached : Option (CacheEntry T)} {ph : Phase T}
    (hp : ph.Pursues v cached) (hwrote : ¬ph.Wrote) (cached' : Option (CacheEntry T)) :
    ph.Pursues v cached' := by
  cases ph with
  | setCached | setStored | returned => exact absurd trivial hwrote
  | _ => exact hp

end Phase

namespace System

variable {k : Key} {reg : Registration} {s s' : System T} {i j : ℕ} {v : T}

theorem pursues_goto {ph : Phase T} (hp : (s.threads i).Pursues v (s.warp.cache k))
    (hself : j = i → ph.Pursues v (s.warp.cache k)) :
    ((s.goto j ph).threads i).Pursues v (s.warp.cache k) := by
  change (update s.threads j ph i).Pursues v (s.warp.cache k)
  by_cases hij : i = j
  · subst hij
    rw [update_self]
    exact hself rfl
  · rwa [update_of_ne hij]

/-- The merge keeps a value that is later than the one it finds, or that the
merge function of the key gives back. -/
theorem data_mergeOver {merges : Engine T} {value : T} {now : Instant} {old : Option (Value T)}
    (hlater : ∀ v, old = some v → merges k = none → v.timestamp < now)
    (hfn : ∀ fn, merges k = some fn → ∀ x y, fn x value = some y → y = value) :
    (merges.mergeOver k old (Value.written value now)).data = value := by
  cases old with
  | none => rfl
  | some old =>
    rw [Engine.mergeOver, Engine.merge]
    cases hmerges : merges k with
    | none =>
      have hlater : old.timestamp < (Value.written value now).timestamp := hlater old rfl hmerges
      simp only [Value.lastWriteWins, if_pos hlater, Option.getD_some]
      cases old.vector <;> rfl
    | some fn =>
      cases hy : fn old.data value with
      | none => simp [hy, Value.written]
      | some y => simpa [hy, Value.written] using hfn fn hmerges old.data y hy

variable (hp : (s.threads i).Pursues v (s.warp.cache k))
include hp

theorem pursues_cacheGetStep {t : Instant}
    (hlater : j = i → ∀ value now, s.threads i = .setTimed value now → s.warp.merges k = none →
      ∀ old, s.warp.cache.get t k = some old → old.timestamp < now)
    (hfn : ∀ fn, s.warp.merges k = some fn → ∀ x y, fn x v = some y → y = v)
    (hstore : s.warp.storeKind = .absent) (h : cacheGetStep k reg s j t = some s') :
    (s'.threads i).Pursues v (s'.warp.cache k) := by
  rw [cacheGetStep] at h
  split at h
  · rename_i value now old hj hget
    cases h
    refine pursues_goto hp ?_
    rintro rfl
    rw [hj] at hp
    obtain rfl : value = v := hp
    exact data_mergeOver (fun _ hold hmerges => hlater rfl value now hj hmerges _ (hget.trans hold))
      hfn
  · rw [if_neg fun hturns => hturns.1 hstore] at h
    cases h
    exact pursues_goto hp (by rintro rfl; simp_all [Phase.Pursues, Value.written])
  · split at h <;> cases h <;>
      exact pursues_goto hp (by rintro rfl; simp_all [Phase.Pursues])
  · split at h <;> cases h <;>
      exact pursues_goto hp (by rintro rfl; simp_all [Phase.Pursues])
  · cases h

theorem pursues_cacheSetStep {t : Instant} {d : Duration} (hwrote : ¬(s.threads i).Wrote)
    (h : cacheSetStep k reg s j t d = some s') :
    (s'.threads i).Pursues v (s'.warp.cache k) := by
  have hkept := hp.of_not_wrote hwrote
  rw [cacheSetStep] at h
  split at h
  · rename_i newVal now hj
    cases h
    refine pursues_goto (hkept _) ?_
    rintro rfl
    rw [hj] at hp
    exact ⟨_, update_self _ _ _, hp⟩
  · cases h
    exact pursues_goto (hkept _) (by rintro rfl; simp_all [Phase.Pursues])
  · cases h
    exact pursues_goto (hkept _) (by rintro rfl; simp_all [Phase.Pursues])
  · cases h

theorem pursues_stepWith {a : Action T}
    (hget : ∀ t, a = .cacheGet i t → ∀ value now, s.threads i = .setTimed value now →
      s.warp.merges k = none → ∀ old, s.warp.cache.get t k = some old → old.timestamp < now)
    (hset : ∀ j t d, a = .cacheSet j t d → ¬(s.threads i).Wrote)
    (hfn : ∀ fn, s.warp.merges k = some fn → ∀ x y, fn x v = some y → y = v)
    (hstore : s.warp.storeKind = .absent) (h : stepWith k reg s a = some s') :
    (s'.threads i).Pursues v (s'.warp.cache k) := by
  cases a with
  | cacheGet j t =>
    exact pursues_cacheGetStep hp (fun hji => hget t (by rw [hji])) hfn hstore h
  | cacheSet j t d => exact pursues_cacheSetStep hp (hset j t d rfl) h
  | flightRead =>
    rw [stepWith, flightReadStep] at h
    split at h <;> cases h
    exact hp
  | flightFinish t =>
    rw [stepWith, flightFinishStep] at h
    split at h <;> cases h
    change (deliver _ (s.threads i)).Pursues v (s.warp.cache k)
    cases hi : s.threads i <;> rw [hi] at hp <;> exact hp
  | eager j l =>
    rw [stepWith, eagerStep] at h
    split at h
    · rename_i hj hl
      have hreturned : ((s.goto j .returned).threads i).Pursues v (s.warp.cache k) :=
        pursues_goto hp (by rintro rfl; simp_all [Phase.Pursues])
      split at h <;> cases h
      · refine pursues_goto hreturned ?_
        rintro rfl
        rw [hl] at hp
        exact hp.elim
      · exact hreturned
    · cases h
  | touch j =>
    rw [stepWith, touchStep] at h
    split at h <;> cases h
    rename_i hj
    refine pursues_goto (s := s.onWarp _) hp ?_
    rintro rfl
    rw [hj] at hp
    exact hp
  | call | readClock | storeGet | storeSet | inspect | join | softTimeout | receive | slide =>
    simp only [stepWith, callStep, readClockStep, storeGetStep, storeSetStep, inspectStep,
      joinStep, softTimeoutStep, receiveStep, slideStep] at h
    repeat' split at h
    all_goals
      cases h <;> exact pursues_goto hp (by rintro rfl; simp_all [Phase.Pursues])

end System

namespace Fleet

/-- The condition on a step, for the `Set` of thread `i`.  What it finds cached
is older than its own reading of the clock.  Once it has written the cache, no
other call writes it, and the listener of the writer handles no event. -/
def Keeps (k : Key) (i : ℕ) (s : Fleet T) : FleetAction T → Prop
  | .work (.cacheGet j t) => j = i → ∀ value now, (s.nodes 0).threads i = .setTimed value now →
      (s.nodes 0).warp.merges k = none →
      ∀ old, (s.nodes 0).warp.cache.get t k = some old → old.timestamp < now
  | .work (.cacheSet _ _ _) => ¬((s.nodes 0).threads i).Wrote
  | .handle 0 => ¬((s.nodes 0).threads i).Wrote
  | _ => True

/-- What does not change on the writer. -/
structure Storeless (k : Key) (merge : Option (MergeFn T)) (w : Warp T) : Prop where
  registered : (w.regs k).isSome
  storeKind : w.storeKind = .absent
  merges : w.merges k = merge

variable {k} {s s' : Fleet T} {merge : Option (MergeFn T)} {a : FleetAction T}

/-- What a step does to the writer: a step of a call, an event that its
listener handles, or nothing. -/
theorem node_of_step (hregistered : ((s.nodes 0).warp.regs k).isSome)
    (hstep : step k s a = some s') :
    (∃ b reg, a = .work b ∧ System.stepWith k reg (s.nodes 0) b = some (s'.nodes 0)) ∨
      (∃ key, a = .handle 0 ∧ s'.nodes 0 = (s.nodes 0).hear key) ∨ s'.nodes 0 = s.nodes 0 := by
  have honNet : ∀ {b : SyncBus.Action} {t : Fleet T}, s.onNet b = some t → t.nodes = s.nodes := by
    intro b t ht
    obtain ⟨net, -, rfl⟩ := Option.map_eq_some_iff.mp ht
    rfl
  cases a with
  | work b =>
    obtain ⟨node, hnode, rfl⟩ := Option.map_eq_some_iff.mp hstep
    obtain ⟨reg, hreg⟩ := Option.isSome_iff_exists.mp hregistered
    rw [System.writers, hreg] at hnode
    refine .inl ⟨b, reg, rfl, (Option.ite_none_right_eq_some.mp hnode).2.trans ?_⟩
    exact congrArg some (update_self 0 node s.nodes).symm
  | publish c =>
    obtain ⟨-, hcall⟩ := Option.ite_none_right_eq_some.mp hstep
    obtain ⟨t, ht, rfl⟩ := Option.map_eq_some_iff.mp hcall
    exact .inr (.inr (congrFun (honNet ht) 0))
  | advanceCall c | abortCall c | cancelCall c => exact .inr (.inr (congrFun (honNet hstep) 0))
  | subscribe n | receive n =>
    simp only [step, Fleet.subscribe, Fleet.receive] at hstep
    split at hstep
    · obtain ⟨t, ht, rfl⟩ := Option.map_eq_some_iff.mp hstep
      exact .inr (.inr (congrFun (honNet ht) 0))
    · cases hstep
  | handle n =>
    rw [step, Fleet.handle] at hstep
    split at hstep
    · rename_i event _
      cases hstep
      have hnode := update_apply s.nodes n ((s.nodes n).hear event.key) 0
      by_cases hn : n = 0
      · subst hn
        exact .inr (.inl ⟨event.key, rfl, hnode.trans (if_pos rfl)⟩)
      · exact .inr (.inr (hnode.trans (if_neg (Ne.symm hn))))
    · cases hstep

theorem Storeless.step (h : Storeless k merge (s.nodes 0).warp)
    (hstep : step k s a = some s') : Storeless k merge (s'.nodes 0).warp := by
  rcases node_of_step h.registered hstep with ⟨b, reg, -, hnode⟩ | ⟨key, -, hnode⟩ | hnode
  · have heffect := (System.stepped_of_stepWith hnode).effect
    exact ⟨heffect.registered ▸ h.registered, heffect.storeKind.trans h.storeKind,
      heffect.merges ▸ h.merges⟩
  · rw [hnode]
    exact ⟨h.registered, h.storeKind, h.merges⟩
  · rwa [hnode]

theorem pursues_step {i : ℕ} {v : T} (h : Storeless k merge (s.nodes 0).warp)
    (hfn : ∀ fn, merge = some fn → ∀ x y, fn x v = some y → y = v)
    (hp : ((s.nodes 0).threads i).Pursues v ((s.nodes 0).warp.cache k))
    (hkeeps : s.Keeps k i a) (hstep : step k s a = some s') :
    ((s'.nodes 0).threads i).Pursues v ((s'.nodes 0).warp.cache k) := by
  rcases node_of_step h.registered hstep with ⟨b, reg, rfl, hnode⟩ | ⟨key, rfl, hnode⟩ | hnode
  · refine System.pursues_stepWith hp ?_ ?_ (h.merges ▸ hfn) h.storeKind hnode
    · rintro t rfl
      exact hkeeps rfl
    · rintro j t d rfl
      exact hkeeps
  · rw [hnode]
    exact hp.of_not_wrote hkeeps _
  · rwa [hnode]

end Fleet

/-! ## What Get returns -/

theorem Warp.get_of_storeless {w : Warp T} {env : Env} {k : Key}
    (hreg : (w.regs k).isSome) (hstore : w.storeKind = .absent)
    (hworking : env.fails (.cacheGet k) = none) :
    (w.get env k).1 =
      match w.cache.get (env.clock (.call (.cacheGet k))) k with
      | some v => Reply.found v.data
      | none => Reply.failed .notFound := by
  obtain ⟨reg, hreg⟩ := Option.isSome_iff_exists.mp hreg
  rw [Warp.get, hreg, Warp.cacheGet, hworking]
  cases w.cache.get (env.clock (.call (.cacheGet k))) k with
  | none =>
    dsimp only
    rw [Warp.getMiss, if_pos hstore]
  | some v =>
    dsimp only
    rw [Warp.getHit]
    split
    · rfl
    · rw [if_neg fun h => h.2 hstore]

namespace Fleet

/-- In every run, `Get` on the writer returns the value of a `Set` that has
returned, before it expires, if the merge function of the key, where it has
one, gives back that value, and if the steps after the call keep it. -/
theorem get_set_of_keeps (k : Key) (s₀ s₁ s : Fleet T) (hstart : s₀.Start k)
    (before after : List (FleetAction T)) (i : ℕ) (v : T)
    (hbefore : Machine.run (step k) s₀ before = some s₁)
    (hrun : Machine.run (step k) s₁ (.work (.call i (.set v)) :: after) = some s)
    (hreturned : (s.nodes 0).threads i = .returned)
    (hfn : ∀ fn, (s₀.nodes 0).warp.merges k = some fn → ∀ x y, fn x v = some y → y = v)
    (hkeeps : Machine.AllSteps (step k) (Keeps k i) s₁ (.work (.call i (.set v)) :: after))
    (env : Env) (hworking : env.fails (.cacheGet k) = none)
    (hlive : ∀ entry, (s.nodes 0).warp.cache k = some entry →
      entry.live (env.clock (.call (.cacheGet k))) = some entry.value) :
    ((s.nodes 0).warp.get env k).1 = .found v := by
  obtain ⟨reg, hreg, -⟩ := hstart.registered 0
  have hstoreless : Storeless k ((s₀.nodes 0).warp.merges k) (s₁.nodes 0).warp :=
    Machine.run_invariant (step k)
      (I := fun s => Storeless k ((s₀.nodes 0).warp.merges k) (s.nodes 0).warp)
      (fun _ _ _ h hstep => h.step hstep) hbefore ⟨hreg ▸ rfl, hstart.storeless 0, rfl⟩
  obtain ⟨s₂, hcall, hafter⟩ := ((step k).run_cons).mp hrun
  have hcalled : ((s₂.nodes 0).threads i).Pursues v ((s₂.nodes 0).warp.cache k) := by
    obtain ⟨node, hnode, rfl⟩ := Option.map_eq_some_iff.mp hcall
    rw [System.writers] at hnode
    split at hnode
    · cases hnode
    · have hgoto := (Option.ite_none_right_eq_some.mp hnode).2
      rw [System.stepWith, System.callStep] at hgoto
      split at hgoto <;> cases hgoto
      simp [System.goto, Request.firstPhase, Phase.Pursues]
  obtain ⟨hs, hp⟩ := Machine.run_invariant_of_allSteps (step k)
    (I := fun s => Storeless k ((s₀.nodes 0).warp.merges k) (s.nodes 0).warp ∧
      ((s.nodes 0).threads i).Pursues v ((s.nodes 0).warp.cache k))
    (fun _ _ _ h hkeeps hstep => ⟨h.1.step hstep, pursues_step h.1 hfn h.2 hkeeps hstep⟩)
    hafter (((step k).allSteps_cons hcall).mp hkeeps).2 ⟨hstoreless.step hcall, hcalled⟩
  rw [hreturned] at hp
  obtain ⟨entry, hcache, rfl⟩ := hp
  rw [Warp.get_of_storeless hs.registered hs.storeKind hworking, Cache.get, hcache,
    Option.bind_some, hlive entry hcache]

/-- A Warp without a store and with nothing cached. -/
def storelessWarp : Warp ℕ :=
  { Warp.uniform (Registration.new .eventualDistributed 60 TTLOptions.zero) with hasBus := true }

def storelessFleet : Fleet ℕ where
  net := SyncBus.System.new
  nodes := fun _ => ⟨storelessWarp, 0, none, fun _ => .idle⟩
  listeners := fun _ => Listener.new
  unpublished := 0

theorem start_storelessFleet : storelessFleet.Start "k" where
  net := rfl
  registered := fun _ => ⟨_, rfl, rfl⟩
  storeless := fun _ => rfl
  empty := fun _ => rfl
  idle := fun _ _ => rfl
  listeners := fun _ => rfl
  unpublished := rfl

/-- The steps of a `Set` at an instant. -/
def setAt (i value : ℕ) (t : Instant) : List (FleetAction ℕ) :=
  [.work (.call i (.set value)), .work (.readClock i t), .work (.cacheGet i t),
    .work (.cacheSet i t 0), .work (.storeSet i), .work (.touch i)]

/-- The writer hears the event of its only `Set`. -/
def ownEvent : List (FleetAction ℕ) :=
  .subscribe 0 :: setAt 0 1 1 ++ [.publish 0, .advanceCall 0, .advanceCall 0, .advanceCall 0,
      .advanceCall 0, .advanceCall 0, .advanceCall 0, .receive 0, .handle 0]

/-- Everything has been processed, and the value is gone. -/
theorem lost_ownEvent : ∃ s, Machine.run (step "k") storelessFleet ownEvent = some s ∧
      s.Settled ∧ lastSet ownEvent = some 1 ∧
      ((s.nodes 0).warp.get Warp.workingEnv "k").1 = .failed .notFound := by
  refine ⟨_, rfl, ⟨?_, rfl, ?_, ?_, ?_⟩, by decide, by decide⟩
  · rintro (_ | n) (_ | i) <;> rfl
  · rintro (_ | c) call ⟨⟩
    exact ⟨none, rfl⟩
  · rintro (_ | n) ch ⟨⟩
    rfl
  · rintro (_ | n) <;> rfl

/-- The event of the first `Set` is handled before the second `Set`. -/
def handledBefore : List (FleetAction ℕ) :=
  .subscribe 0 :: setAt 0 1 1 ++ [.publish 0, .advanceCall 0, .advanceCall 0, .advanceCall 0,
    .advanceCall 0, .receive 0, .handle 0]

/-- The publish of the second `Set` is merged into the one that is still under
way. -/
def mergedPublish : List (FleetAction ℕ) :=
  setAt 1 2 2 ++ [.publish 1, .advanceCall 1, .advanceCall 1, .advanceCall 0, .advanceCall 0]

theorem get_set_mergedPublish :
    ∃ s₁ s, Machine.run (step "k") storelessFleet handledBefore = some s₁ ∧
      Machine.run (step "k") s₁ mergedPublish = some s ∧ s.Settled ∧
      lastSet (handledBefore ++ mergedPublish) = some 2 ∧
      ((s.nodes 0).warp.get Warp.workingEnv "k").1 = .found 2 := by
  refine ⟨_, _, rfl, rfl, ⟨?_, rfl, ?_, ?_, ?_⟩, by decide, ?_⟩
  · rintro (_ | n) (_ | _ | i) <;> rfl
  · rintro (_ | _ | c) call ⟨⟩
    · exact ⟨none, rfl⟩
    · exact ⟨none, rfl⟩
  · rintro (_ | n) ch ⟨⟩
    rfl
  · rintro (_ | n) <;> rfl
  · refine get_set_of_keeps "k" storelessFleet _ _ start_storelessFleet handledBefore
      mergedPublish.tail 1 2 rfl rfl rfl (by rintro fn ⟨⟩) ?_ Warp.workingEnv rfl ?_
    · iterate 2 refine .cons trivial rfl ?_
      refine .cons (by rintro - value now - - old ⟨⟩) rfl ?_
      refine .cons id rfl ?_
      iterate 7 refine .cons trivial rfl ?_
      trivial
    · rintro entry ⟨⟩
      rfl

end Fleet

end GoWarp.Core
