import GoWarp.Core.PassedTTL
import Mathlib.Tactic.Linarith

/-!
# Dynamic TTLs

With `WithDynamicTTL` an access that follows the last one closely makes the TTL
of a key longer, and one that comes late makes it shorter.  The cache keeps an
entry without an expiry if it is written with a TTL that is not positive.

The TTL falls to zero when the least TTL is zero, and it becomes negative when
an increment overflows.  If neither is possible, every TTL that a run passes to
the cache is positive, and what is cached expires.
-/

namespace GoWarp.Core

open Support

variable {T : Type}

def TTLOptions.withSliding (o : TTLOptions) : TTLOptions := { o with sliding := true }

def TTLOptions.withDynamicTTL (freq inc dec min max : Duration) (o : TTLOptions) : TTLOptions :=
  { o with
    freqThreshold := freq
    increment := inc
    decrement := dec
    minTTL := min
    maxTTL := max }

/-- The TTL of a key and the arguments of `WithDynamicTTL`, with or without
`WithSliding`. -/
structure Dynamics where
  ttl : Duration
  freq : Duration
  inc : Duration
  dec : Duration
  min : Duration
  max : Duration
  sliding : Bool
  ttl_pos : 0 < ttl
  freq_pos : 0 < freq
  inc_nonneg : 0 ≤ inc
  dec_nonneg : 0 ≤ dec
  min_nonneg : 0 ≤ min
  ttl_fits : ttl < 2 ^ 63
  inc_fits : inc < 2 ^ 63
  dec_fits : dec < 2 ^ 63
  min_fits : min < 2 ^ 63
  max_fits : max < 2 ^ 63

namespace Dynamics

def opts (a : Dynamics) : TTLOptions :=
  let o := TTLOptions.zero.withDynamicTTL a.freq a.inc a.dec a.min a.max
  if a.sliding then o.withSliding else o

/-- No TTL of a run is longer. -/
def bound (a : Dynamics) : Duration := Max.max a.ttl (Max.max a.min a.max)

/-- The TTL cannot fall to zero, and no increment overflows. -/
structure KeepsPositive (a : Dynamics) : Prop where
  floor : 0 < a.min ∨ a.dec = 0
  ceiling : a.inc = 0 ∨ 0 < a.max ∧ a.bound + a.inc < 2 ^ 63

/-- The TTLs of a run. -/
def InRange (a : Dynamics) (d : Duration) : Prop := 0 < d ∧ d ≤ a.bound

variable {a : Dynamics}

theorem opts_eq (a : Dynamics) :
    a.opts = ⟨a.sliding, a.freq, a.inc, a.dec, a.min, a.max, 0, 0, none⟩ := by
  rw [opts]
  cases a.sliding with
  | true => rfl
  | false => rfl

theorem bound_lt (a : Dynamics) : a.bound < 2 ^ 63 :=
  max_lt a.ttl_fits (max_lt a.min_fits a.max_fits)

theorem inRange_ttl (a : Dynamics) : a.InRange a.ttl := ⟨a.ttl_pos, le_max_left _ _⟩

theorem InRange.wrap64 {d : Duration} (hd : a.InRange d) : Core.wrap64 (d + 0) = d := by
  rw [Int.add_zero]
  exact wrap64_of_range ⟨le_trans (by decide) hd.1.le, hd.2.trans_lt a.bound_lt⟩

/-! ## Adjust -/

variable {cur : Duration}

theorem InRange.increase (ha : a.KeepsPositive) (hcur : a.InRange cur) :
    a.InRange (let cur := Core.wrap64 (cur + a.inc)
      if 0 < a.max ∧ a.max < cur then a.max else cur) := by
  have hsum : Core.wrap64 (cur + a.inc) = cur + a.inc := by
    refine wrap64_of_range ⟨?_, ?_⟩
    · exact le_trans (by decide) (Int.add_nonneg hcur.1.le a.inc_nonneg)
    · rcases ha.ceiling with hinc | ⟨_, hlt⟩
      · rw [hinc, Int.add_zero]
        exact hcur.2.trans_lt a.bound_lt
      · exact (Int.add_le_add_right hcur.2 _).trans_lt hlt
  have hmax : a.max ≤ a.bound := (le_max_right _ _).trans (le_max_right _ _)
  dsimp only
  rw [hsum]
  split
  · rename_i hexceeds
    exact ⟨hexceeds.1, hmax⟩
  · rename_i hwithin
    refine ⟨Int.lt_of_lt_of_le hcur.1 (Int.le_add_of_nonneg_right a.inc_nonneg), ?_⟩
    rcases ha.ceiling with hinc | ⟨hpos, _⟩
    · rw [hinc, Int.add_zero]
      exact hcur.2
    · exact (Int.not_lt.mp fun hlt => hwithin ⟨hpos, hlt⟩).trans hmax

theorem InRange.decrease (ha : a.KeepsPositive) (hcur : a.InRange cur) :
    a.InRange (let cur := Core.wrap64 (cur - a.dec)
      if cur < a.min then a.min else cur) := by
  have hle : cur - a.dec ≤ cur := Int.sub_le_self cur a.dec_nonneg
  have hdiff : Core.wrap64 (cur - a.dec) = cur - a.dec := by
    refine wrap64_of_range ⟨?_, (hle.trans hcur.2).trans_lt a.bound_lt⟩
    linarith [hcur.1, a.dec_fits]
  have hmin : a.min ≤ a.bound := (le_max_left _ _).trans (le_max_right _ _)
  dsimp only
  rw [hdiff]
  split
  · rename_i hbelow
    refine ⟨?_, hmin⟩
    rcases ha.floor with hpos | hdec
    · exact hpos
    · rw [hdec, Int.sub_zero] at hbelow
      exact hcur.1.trans hbelow
  · rename_i habove
    refine ⟨?_, hle.trans hcur.2⟩
    rcases ha.floor with hpos | hdec
    · exact hpos.trans_le (Int.not_lt.mp habove)
    · rw [hdec, Int.sub_zero]
      exact hcur.1

theorem InRange.adjust (ha : a.KeepsPositive) (hcur : a.InRange cur) (last now : Instant) :
    a.InRange (a.opts.adjust cur last now) := by
  rw [a.opts_eq, TTLOptions.adjust, if_neg (Int.not_le.mpr a.freq_pos)]
  split
  · exact hcur.increase ha
  · exact hcur.decrease ha

/-! ## Registrations -/

/-- A registration of the key, after any number of accesses. -/
structure Registers (a : Dynamics) (reg : Registration) : Prop where
  ttl : reg.ttl = a.ttl
  strategy : reg.hasStrategy = false
  opts : reg.ttlOpts = a.opts
  current : a.InRange reg.currentTTL

namespace Registers

variable {reg reg₀ : Registration} {env : Env} {k : Key} {d : Duration}

theorem new (a : Dynamics) (mode : Mode) : a.Registers (Registration.new mode a.ttl a.opts) :=
  ⟨rfl, rfl, rfl, a.inRange_ttl⟩

section

variable (h : a.Registers reg)
include h

theorem touch (hd : a.InRange d) (now : Instant) : a.Registers (reg.touch d now) :=
  ⟨h.ttl, h.strategy, h.opts, hd⟩

theorem envTTL : env.ttl k reg = a.ttl := by
  rw [Env.ttl, h.strategy, h.ttl]
  rfl

theorem grace : reg.ttlOpts.failSafeGracePeriod = 0 := by rw [h.opts, a.opts_eq]

theorem effectiveTTL : env.effectiveTTL k reg = a.ttl := by
  rw [Env.effectiveTTL, h.envTTL, h.grace, a.inRange_ttl.wrap64]

end

theorem grants (ha : a.KeepsPositive) (h : a.Registers reg)
    (hgrants : env.Grants k reg d) : a.InRange d := by
  rcases hgrants with rfl | ⟨_, rfl⟩ | ⟨_, now, rfl⟩
  · rw [h.envTTL]
    exact a.inRange_ttl
  · exact h.current
  · rw [Warp.slidTTL, h.strategy, h.opts]
    exact h.current.adjust ha _ now

theorem upkeep (ha : a.KeepsPositive) (k : Key) : Upkeep k a.Registers a.InRange where
  current _ h := h.current
  granted _ _ _ _ now h₀ h hgrants := h.touch (h₀.grants ha hgrants) now
  captured _ _ _ now h httl := by
    rw [h.strategy]
    exact h.touch httl now

end Registers

/-- The key is registered with the options, and what goroutines have captured
for it is in range. -/
abbrev Governs (a : Dynamics) (k : Key) (w : Warp T) : Prop := w.Kept k a.Registers a.InRange

variable [DecidableEq T] {k : Key} {w w' : Warp T} {step : Env × Access T}

theorem governs_step (ha : a.KeepsPositive) (h : a.Governs k w)
    (hstep : Access.step w step = some w') : a.Governs k w' := by
  refine Access.kept_step (Registers.upkeep ha k) h ?_ hstep
  rintro txn order _ _ reg₀ reg now h₀ hreg
  rw [h₀.effectiveTTL]
  exact hreg.touch a.inRange_ttl now

theorem passedTTL_inRange (ha : a.KeepsPositive) (h : a.Governs k w)
    (hstep : Access.step w step = some w') {d : Duration}
    (hd : step.2.passedTTL k w step.1 = some d) : a.InRange d := by
  obtain ⟨reg, hreg, hregisters⟩ := h.registered
  rcases Access.passedTTL_cases hreg hd with ⟨env, ttl, hgrants, rfl⟩ |
    ⟨_, _, _, _, _, rfl⟩ | ⟨task, fetched, ttl, htask, hcaptured, rfl⟩
  · have hrange := hregisters.grants ha hgrants
    rw [hregisters.grace, hrange.wrap64]
    exact hrange
  · rw [hregisters.envTTL]
    exact a.inRange_ttl
  · have hmem : task ∈ w.spawned := by
      obtain ⟨env, access⟩ := step
      obtain rfl : access = _ := htask
      exact Access.mem_spawned_of_step hstep
    have hrange := h.captured task hmem ttl hcaptured
    rw [hregisters.strategy, hregisters.grace]
    change a.InRange (Core.wrap64 (ttl + 0))
    rw [hrange.wrap64]
    exact hrange

def Expires (k : Key) (w : Warp T) : Prop :=
  ∀ entry, w.cache k = some entry → entry.expiresAt ≠ none

omit [DecidableEq T] in
theorem expires_of_leaves {times : List Instant} {ttl : Option Duration} (h : Expires k w)
    (hleaves : w.Leaves k times w' ttl) (hpos : ∀ d, ttl = some d → 0 < d) :
    Expires k w' := by
  intro entry hentry
  rcases hleaves with heq | hnone | ⟨now, -, v, d, hd, hnew⟩
  · exact h entry (heq.symm.trans hentry)
  · rw [hentry] at hnone
    cases hnone
  · obtain rfl := Option.mem_unique hentry hnew
    rw [Cache.newEntry, if_pos (hpos d hd)]
    exact Option.some_ne_none _

/-! ## Runs -/

/-- In every run of accesses to a key with a dynamic TTL that cannot fall to zero
and cannot overflow, every TTL that is passed to the cache for the key is
positive; and after it the current TTL is positive, and what is cached for the
key expires. -/
theorem positive_of_keepsPositive (ha : a.KeepsPositive) {mode : Mode}
    (hreg : w.regs k = some (Registration.new mode a.ttl a.opts))
    (hspawned : w.spawned = []) (hcache : Expires k w)
    {steps : List (Env × Access T)}
    (hrun : Machine.run Access.step w steps = some w') :
    Machine.AllSteps Access.step (fun w step => ∀ d,
        step.2.passedTTL k w step.1 = some d → 0 < d) w steps ∧
      (∃ reg, w'.regs k = some reg ∧ 0 < reg.currentTTL) ∧ Expires k w' := by
  have hgoverns : a.Governs k w := by
    refine ⟨⟨_, hreg, Registers.new a mode⟩, ?_⟩
    rw [hspawned]
    exact fun _ hmem => absurd hmem List.not_mem_nil
  have hstep : ∀ (w : Warp T) step w', a.Governs k w ∧ Expires k w →
      Access.step w step = some w' → a.Governs k w' ∧ Expires k w' := by
    rintro w step w' ⟨hw, hexpires⟩ hstep
    refine ⟨governs_step ha hw hstep, expires_of_leaves hexpires
      (Access.leaves_step hstep) fun d hd => ?_⟩
    exact (passedTTL_inRange ha hw hstep hd).1
  obtain ⟨hlast, hexpires⟩ := Access.step.run_invariant hstep hrun ⟨hgoverns, hcache⟩
  refine ⟨?_, ?_, hexpires⟩
  · exact Access.step.allSteps_of_run hstep
      (fun w step w' hw hstep d hd => (passedTTL_inRange ha hw.1 hstep hd).1)
      hrun ⟨hgoverns, hcache⟩
  · obtain ⟨reg, hreg', hregisters⟩ := hlast.registered
    exact ⟨reg, hreg', hregisters.current.1⟩

/-! ## TTLs that fall to zero or overflow -/

/-- A key that is registered with the options, and nothing cached. -/
def warp (a : Dynamics) : Warp ℕ :=
  { Warp.localWarp with
    cache := fun _ => none
    regs := fun _ => some (Registration.new .strongLocal a.ttl a.opts) }

/-- A write at the instant 0, and reads at the given instants. -/
def accesses (times : List Instant) : List (Env × Access ℕ) :=
  ({ Warp.workingEnv with clock := fun _ => 0 }, .key "k" (.set 3)) :: times.map fun t =>
      ({ Warp.workingEnv with clock := fun _ => t }, .key "k" .get)

/-- The least TTL is zero. -/
def shrinking : Dynamics where
  ttl := 60
  freq := 10
  inc := 5
  dec := 60
  min := 0
  max := 100
  sliding := true
  ttl_pos := by decide
  freq_pos := by decide
  inc_nonneg := by decide
  dec_nonneg := by decide
  min_nonneg := by decide
  ttl_fits := by decide
  inc_fits := by decide
  dec_fits := by decide
  min_fits := by decide
  max_fits := by decide

/-- There is no longest TTL. -/
def growing : Dynamics :=
  { shrinking with
    inc := 2 ^ 62
    min := 1
    max := 0
    inc_nonneg := by decide
    min_nonneg := by decide
    inc_fits := by decide
    min_fits := by decide
    max_fits := by decide }

/-- A late read makes the first TTL zero, and the second read at once makes the
other one negative: the entries are kept without an expiry. -/
theorem kept_without_expiry : (Machine.run Access.step shrinking.warp (accesses [20])).map
        (fun w => ((w.regs "k").map Registration.currentTTL,
          (w.cache "k").map CacheEntry.expiresAt)) =
          some (some 0, some none) ∧
      (Machine.run Access.step growing.warp (accesses [1, 2])).map
        (fun w => ((w.regs "k").map Registration.currentTTL,
          (w.cache "k").map CacheEntry.expiresAt)) =
          some (some (60 + 2 ^ 63 - 2 ^ 64), some none) := by
  decide

/-- The TTL stays between 1 and 100. -/
def steady : Dynamics :=
  { shrinking with
    min := 1
    min_nonneg := by decide
    min_fits := by decide }

theorem keepsPositive_steady : steady.KeepsPositive :=
  ⟨.inl (by decide), .inr ⟨by decide, by decide⟩⟩

theorem positive_of_keepsPositive_steady :
    ∃ w', Machine.run Access.step steady.warp (accesses [5, 20, 21]) = some w' ∧
      (∃ reg, w'.regs "k" = some reg ∧ 0 < reg.currentTTL) ∧
      Expires "k" w' := by
  obtain ⟨w', hrun⟩ : ∃ w', Machine.run Access.step steady.warp
      (accesses [5, 20, 21]) = some w' := ⟨_, rfl⟩
  have hcache : Expires "k" steady.warp := fun _ hentry => by cases hentry
  exact ⟨w', hrun, (positive_of_keepsPositive keepsPositive_steady rfl rfl hcache hrun).2⟩

end Dynamics

end GoWarp.Core
