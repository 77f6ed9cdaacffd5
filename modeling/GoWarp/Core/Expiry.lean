import GoWarp.Core.PassedTTL

/-!
# The TTL contract

A key with a static TTL `t` and a grace period `g` is cached for `t + g`, and
its registration says that a value older than `t` is stale.

Two places break the contract when there is a grace period: a commit records
`t + g` as the TTL after which a value is stale, and the validator caches a
value for `t` only.  A run without these keeps it.
-/

namespace GoWarp.Core

open Support Support.Program

variable {T : Type}

/-- A registration with the TTL `t` and the grace period `g`, without a
strategy and without options that adapt the TTL. -/
structure Registration.Static (t g : Duration) (reg : Registration) : Prop where
  ttl : reg.ttl = t
  strategy : reg.hasStrategy = false
  sliding : reg.ttlOpts.sliding = false
  frequency : reg.ttlOpts.freqThreshold ≤ 0
  grace : reg.ttlOpts.failSafeGracePeriod = g

namespace Registration.Static

variable {t g : Duration} {reg : Registration} {env : Env} {k : Key}

variable (h : reg.Static t g)
include h

theorem touch (ttl : Duration) (now : Instant) : (reg.touch ttl now).Static t g := { h with }

theorem envTTL : env.ttl k reg = t := by
  rw [Env.ttl, h.strategy, h.ttl]
  rfl

theorem effectiveTTL : env.effectiveTTL k reg = wrap64 (t + g) := by
  rw [Env.effectiveTTL, h.envTTL, h.grace]

theorem not_slides : ¬(reg.ttlOpts.sliding = true ∨ 0 < reg.ttlOpts.freqThreshold) := by
  rw [h.sliding]
  rintro (hsliding | hfrequency)
  · cases hsliding
  · exact absurd hfrequency (Int.not_lt.mpr h.frequency)

theorem grants (hcurrent : reg.currentTTL = t)
    {ttl : Duration} (hgrants : env.Grants k reg ttl) : ttl = t := by
  rcases hgrants with httl | ⟨_, httl⟩ | ⟨hslides, _⟩
  · rw [httl, h.envTTL]
  · rw [httl, hcurrent]
  · exact absurd hslides h.not_slides

theorem captured : wrap64 ((if reg.hasStrategy then env.strategyTTL k else t) +
      reg.ttlOpts.failSafeGracePeriod) = wrap64 (t + g) := by
  rw [h.strategy, h.grace]
  rfl

end Registration.Static

/-- A goroutine that fills `k` has captured `t`. -/
def Task.Captured (k : Key) (t : Duration) : Task → Prop
  | .publish _ => True
  | .softFill k' currentTTL => k' = k → currentTTL = t
  | .eagerRefresh k' currentTTL => k' = k → currentTTL = t

/-- The registration of `k` says that values are stale after `t`, and so do
the goroutines that are going to fill `k`. -/
structure Warp.Timed (k : Key) (t g : Duration) (w : Warp T) : Prop where
  registered : ∃ reg, w.regs k = some reg ∧ reg.Static t g ∧ reg.currentTTL = t
  captured : ∀ task ∈ w.spawned, task.Captured k t

theorem Registration.Static.upkeep (k : Key) (t g : Duration) :
    Upkeep k (fun reg => reg.Static t g ∧ reg.currentTTL = t) (· = t) where
  current _ h := h.2
  granted _ _ _ ttl now h₀ h hgrants := ⟨h.1.touch ttl now, h₀.1.grants h₀.2 hgrants⟩
  captured _ _ ttl now h httl := by
    rw [h.1.strategy]
    exact ⟨h.1.touch ttl now, httl⟩

theorem Task.captured_iff (k : Key) (t : Duration) (task : Task) :
    task.Captured k t ↔ ∀ ttl, task.capturedTTL k = some ttl → ttl = t := by
  cases task with
  | publish k' | softFill k' currentTTL | eagerRefresh k' currentTTL => simp [Captured, capturedTTL]

namespace Warp.Timed

variable {k : Key} {t g : Duration} {w : Warp T}

theorem iff_kept : w.Timed k t g ↔
    w.Kept k (fun reg => reg.Static t g ∧ reg.currentTTL = t) (· = t) := by
  constructor
  · intro h
    exact ⟨h.registered, fun task hmem => (task.captured_iff k t).mp (h.captured task hmem)⟩
  · intro h
    exact ⟨h.registered, fun task hmem => (task.captured_iff k t).mpr (h.captured task hmem)⟩

end Warp.Timed

/-! ## Runs that keep the contract -/

/-- Without a grace period every access will do.  With one, the access is not
a commit that sets `k`, nor a scan that replaces the cached value of `k`. -/
def Access.KeepsGrace (k : Key) (g : Duration) (w : Warp T) (step : Env × Access T) : Prop :=
  g = 0 ∨
    match step.2 with
    | .commit txn _ => k ∉ txn.sets
    | .scan val keys _ => ¬val.Heals w step.1 keys k
    | _ => True

/-- What the contract says about one access, for `0 < t + g < 2 ^ 63`. -/
structure Access.MeetsContract (k : Key) (t g : Duration) (w : Warp T)
    (step : Env × Access T) (w' : Warp T) : Prop where
  /-- every `cache.Set` for the key passes `t + g`, also one that fails -/
  passed : ∀ d, step.2.passedTTL k w step.1 = some d → d = t + g
  /-- what is cached is as before, or gone, or what `cache.Set` makes of a value
  and `t + g` when it reads the clock -/
  cached : w'.cache k = w.cache k ∨ w'.cache k = none ∨ ∃ now ∈ step.2.setTimes k step.1,
    ∃ v, w'.cache k = some (Cache.newEntry now v (t + g))
  /-- a new entry stays until `t + g` after it was cached -/
  available : ∀ entry, w'.cache k = some entry → w.cache k = some entry ∨
    ∃ cachedAt ∈ step.2.setTimes k step.1, ∀ now,
      entry.live now = some entry.value ↔ now ≤ cachedAt + (t + g)
  /-- a value is stale when it is older than `t` -/
  stale : ∃ reg, w'.regs k = some reg ∧ reg.currentTTL = t ∧
    ∀ (v : Value T) now, Warp.isStale reg v now = true ↔ 0 < g ∧ v.timestamp + t < now

variable {k : Key} {w w' : Warp T} {env : Env} {access : Access T}

theorem Registration.Static.extends {t g d : Duration}
    {reg : Registration} (h : reg.Static t g) (hcurrent : reg.currentTTL = t)
    (hd : reg.Extends k d) : d = wrap64 (t + g) := by
  obtain ⟨env, ttl, hgrants, rfl⟩ := hd
  rw [h.grants hcurrent hgrants, h.grace]

theorem Access.passedTTL_of_timed [DecidableEq T] {t g d : Duration} (ht : wrap64 t = t)
    (h : w.Timed k t g) (hkeeps : Access.KeepsGrace k g w (env, access))
    (hstep : Access.step w (env, access) = some w')
    (hd : access.passedTTL k w env = some d) : d = wrap64 (t + g) := by
  obtain ⟨reg, hreg, hstatic, hcurrent⟩ := h.registered
  rcases Access.passedTTL_cases hreg hd with hextends | ⟨val, keys, nodup, rfl, hheals, rfl⟩ |
    ⟨task, fetched, currentTTL, rfl, hcaptured, rfl⟩
  · exact hstatic.extends hcurrent hextends
  · obtain rfl : g = 0 := hkeeps.resolve_right fun hnot => hnot hheals
    rw [hstatic.envTTL, Int.add_zero, ht]
  · obtain rfl := (Warp.Timed.iff_kept.mp h).captured task
      (Access.mem_spawned_of_step hstep) currentTTL hcaptured
    exact hstatic.captured

theorem Access.timed_step [DecidableEq T] {t g : Duration} (ht : wrap64 t = t)
    (h : w.Timed k t g) (hkeeps : Access.KeepsGrace k g w (env, access))
    (hstep : Access.step w (env, access) = some w') : w'.Timed k t g := by
  rw [Warp.Timed.iff_kept] at h ⊢
  refine Access.kept_step (Registration.Static.upkeep k t g) h ?_ hstep
  rintro txn order rfl hmem reg₀ reg now h₀ hreg
  -- a commit records `t + g`, which is `t` without a grace period
  obtain rfl : g = 0 := hkeeps.resolve_right fun hnot => hnot hmem
  rw [h₀.1.effectiveTTL, Int.add_zero, ht]
  exact ⟨hreg.1.touch t now, rfl⟩

theorem Access.meetsContract [DecidableEq T] {t g : Duration}
    (ht : wrap64 t = t) (hpos : 0 < t + g) (hlt : t + g < 2 ^ 63)
    (h : w.Timed k t g) (hkeeps : Access.KeepsGrace k g w (env, access))
    (hstep : Access.step w (env, access) = some w') :
    Access.MeetsContract k t g w (env, access) w' := by
  have hpassed : ∀ d, access.passedTTL k w env = some d → d = t + g := by
    intro d hd
    rw [Access.passedTTL_of_timed ht h hkeeps hstep hd]
    exact wrap64_of_range ⟨le_trans (by decide) hpos.le, hlt⟩
  have hcached : w'.cache k = w.cache k ∨ w'.cache k = none ∨ ∃ now ∈ access.setTimes k env,
      ∃ v, w'.cache k = some (Cache.newEntry now v (t + g)) := by
    refine (Access.leaves_step (k := k) hstep).imp_right (.imp_right ?_)
    rintro ⟨now, hnow, v, d, hd, hnew⟩
    exact ⟨now, hnow, v, hpassed d hd ▸ hnew⟩
  refine ⟨hpassed, hcached, ?_, ?_⟩
  · intro entry hentry
    rcases hcached with heq | hnone | ⟨cachedAt, htime, v, hnew⟩
    · exact .inl (heq.symm.trans hentry)
    · rw [hentry] at hnone
      cases hnone
    · obtain rfl := Option.mem_unique hentry hnew
      exact .inr ⟨cachedAt, htime, Cache.live_newEntry_iff hpos v cachedAt⟩
  · obtain ⟨reg, hreg, hstatic, hcurrent⟩ :=
      (Access.timed_step ht h hkeeps hstep).registered
    refine ⟨reg, hreg, hcurrent, fun v now => ?_⟩
    rw [Warp.isStale, hstatic.grace, hcurrent, decide_eq_true_iff]

/-- On a key with the static TTL `t` and the grace period `g`, whose sum is
positive and does not overflow, a run in which commits do not set the key and
scans do not replace its cached value, unless there is no grace period, meets
the TTL contract at every access. -/
theorem Access.meetsContract_of_keepsGrace [DecidableEq T] (k : Key)
    (t g : Duration) (ht : -2 ^ 63 ≤ t ∧ t < 2 ^ 63)
    (hpos : 0 < t + g) (hlt : t + g < 2 ^ 63) (w : Warp T)
    (hw : w.Timed k t g) (steps : List (Env × Access T))
    (hsteps : Machine.AllSteps Access.step (Access.KeepsGrace k g) w steps) :
    Machine.AllSteps Access.step (fun w step => ∀ w',
      Access.step w step = some w' → Access.MeetsContract k t g w step w')
      w steps := by
  have hwrap := wrap64_of_range ht
  induction steps generalizing w with
  | nil => trivial
  | cons step rest ih =>
    obtain ⟨hstep, hrest⟩ := hsteps
    refine ⟨fun w' hw' => Access.meetsContract hwrap hpos hlt hw hstep hw', ?_⟩
    intro w' hw'
    exact ih w' (Access.timed_step hwrap hw hstep hw') (hrest w' hw')

/-! ## A commit and a scan under a grace period -/

/-- A key with the TTL 60 and the grace period 30; the cache and the store
differ. -/
def graceWarp : Warp ℕ :=
  { Warp.uniform (Registration.new .strongLocal 60
      { TTLOptions.zero with failSafeGracePeriod := 30 }) with
    cache := fun _ => some ⟨Value.written 1 0, some 90⟩
    store := fun _ => some 2
    storeKind := .batcher }

theorem timed_graceWarp : graceWarp.Timed "k" 60 30 :=
  ⟨⟨_, rfl, ⟨rfl, rfl, rfl, Int.le_refl 0, rfl⟩, rfl⟩, fun _ hmem => absurd hmem List.not_mem_nil⟩

/-- A write and a read of the key. -/
def graceSteps : List (Env × Access ℕ) :=
  [(Warp.workingEnv, .key "k" (.set 3)), (Warp.workingEnv, .key "k" .get)]

theorem meetsContract_graceSteps : Machine.AllSteps Access.step (fun w step => ∀ w',
      Access.step w step = some w' → Access.MeetsContract "k" 60 30 w step w')
      graceWarp graceSteps :=
  Access.meetsContract_of_keepsGrace "k" 60 30 (by decide) (by decide) (by decide) graceWarp
    timed_graceWarp graceSteps
    ⟨.inr trivial, fun _ _ => ⟨.inr trivial, fun _ _ => trivial⟩⟩

/-- A transaction that sets the key. -/
def graceTxn : Txn ℕ := Txn.empty.set "k" 3

def graceOrder : graceTxn.Order where
  sets := graceTxn.sets.entries
  deletes := graceTxn.deletes.keys
  sets_perm := List.Perm.refl _
  deletes_perm := List.Perm.refl _

def healer : Validator ℕ := ⟨.autoHeal, fun n => some (toString n), 0⟩

/-- After the commit a value is stale at the age of 90 instead of 60, and the
scan caches the stored value for 60 instead of 90. -/
theorem contract_broken_graceWarp :
    (((graceTxn.commit graceWarp Warp.workingEnv graceOrder).2.regs "k").map
        Registration.currentTTL = some 90) ∧
      ((healer.scan graceWarp Warp.workingEnv ["k"]).2.cache "k").map
        CacheEntry.expiresAt = some (some (2 + 60)) := by
  decide

end GoWarp.Core
