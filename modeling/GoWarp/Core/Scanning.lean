import GoWarp.Core.Loading
import GoWarp.Core.MergeRace

/-!
# Validator scans, step by step

A scan of a validator lists the keys of the store.  For each it reads the
cached value and then the stored one, and in `ModeAutoHeal` it writes the
stored value to the cache when the two differ.  Here any number of scans take
these steps between the steps of a `Set`.  No call of the cache or the store
fails.

A scan that is not interrupted does what `Validator.scan` does.
-/

namespace GoWarp.Core

open Support

variable {T : Type}

namespace Validator

variable (val : Validator T)

/-- The stored value, if its digest differs from the one of the cached
value. -/
def differing (cv sv : T) : Option T :=
  match val.digest cv, val.digest sv with
  | some a, some b => if a = b then none else some sv
  | _, _ => none

theorem differing_self (v : T) : val.differing v v = none := by
  rw [differing]
  split
  · rename_i a b ha hb
    exact if_pos (Option.mem_unique ha hb)
  · rfl

theorem eq_of_differing {cv sv data : T} (h : val.differing cv sv = some data) : data = sv := by
  rw [differing] at h
  split at h
  · exact (Option.some.inj (Option.ite_none_left_eq_some.mp h).2).symm
  · cases h

end Validator

/-- Where a scan stands.  A scan with no key ahead of it has ended. -/
inductive ScanPhase (T : Type) where
  | idle
  /-- before `cache.Get` of the next key -/
  | ahead (keys : List Key)
  /-- before `store.Get` -/
  | cached (k : Key) (cv : T) (keys : List Key)
  /-- a mismatch has been found, before `validatorCache.Set` -/
  | healing (k : Key) (sv : T) (keys : List Key)
  /-- `validatorCache.Set`, before `cache.Set` -/
  | writing (k : Key) (mv : Value T) (ttl : Duration) (keys : List Key)

/-- The steps of the scans.  `t` is the reading of the clock a step takes and
`d` what the TTL strategy answers. -/
inductive ScanAction where
  | list (j : ℕ) (keys : List Key)
  | cancel (j : ℕ)
  | cacheGet (j : ℕ) (t : Instant)
  | storeGet (j : ℕ)
  | prepare (j : ℕ) (t : Instant) (d : Duration)
  | cacheSet (j : ℕ) (t : Instant)

/-- The clock reading of a step, if it takes one. -/
def ScanAction.reading : ScanAction → Option Instant
  | .cacheGet _ t => some t
  | .prepare _ t _ => some t
  | .cacheSet _ t => some t
  | _ => none

/-- The system in which a `Set` takes its steps, the validator, and its
scans. -/
structure Healing (T : Type) where
  system : System T
  validator : Validator T
  scans : ℕ → ScanPhase T

namespace Healing

/-- Move a scan to another phase. -/
def goto (s : Healing T) (j : ℕ) (ph : ScanPhase T) : Healing T :=
  { s with scans := Function.update s.scans j ph }

def count (s : Healing T) : Healing T :=
  { s with
    validator := { s.validator with mismatches := s.validator.mismatches + 1 } }

def onSystem (s : Healing T) (f : System T → System T) : Healing T :=
  { s with system := f s.system }

/-- The TTL of a healed value: none for a key without a registration. -/
def healTTL (w : Warp T) (k : Key) (d : Duration) : Duration :=
  match w.regs k with
  | none => 0
  | some reg => System.chosenTTL reg d reg.ttl

section Steps

variable (s : Healing T) (j : ℕ)

/-- `store.Keys`. -/
def listStep (keys : List Key) : Option (Healing T) :=
  match s.scans j with
  | .idle =>
    if s.system.warp.storeKind ≠ .absent ∧ ∀ k ∈ keys, (s.system.warp.store k).isSome = true then
      some (s.goto j (.ahead keys))
    else
      none
  | _ => none

/-- The context is done before the next key. -/
def cancelStep : Option (Healing T) :=
  match s.scans j with
  | .ahead _ => some (s.goto j (.ahead []))
  | _ => none

/-- `cache.Get` of the next key. -/
def cacheGetStep (t : Instant) : Option (Healing T) :=
  match s.scans j with
  | .ahead (k :: keys) =>
    some ((s.onSystem fun sys => sys.tick t).goto j (match s.system.warp.cache.get t k with
        | some v => .cached k v.data keys
        | none => .ahead keys))
  | _ => none

/-- `store.Get`, and the comparison of the digests. -/
def storeGetStep : Option (Healing T) :=
  match s.scans j with
  | .cached k cv keys =>
    match (s.system.warp.store k).bind (s.validator.differing cv) with
    | none => some (s.goto j (.ahead keys))
    | some sv =>
      some (s.count.goto j (if s.validator.mode = .autoHeal then .healing k sv keys
          else .ahead keys))
  | _ => none

/-- `validatorCache.Set` up to its `cache.Set`: the clock, the TTL and the
registration. -/
def prepareStep (t : Instant) (d : Duration) : Option (Healing T) :=
  match s.scans j with
  | .healing k sv keys =>
    let ttl := healTTL s.system.warp k d
    some ((s.onSystem fun sys =>
      (sys.tick t).onWarp fun w => w.touch k ttl t).goto j
        (.writing k (Value.written sv t) ttl keys))
  | _ => none

/-- `cache.Set` of the stored value. -/
def cacheSetStep (t : Instant) : Option (Healing T) :=
  match s.scans j with
  | .writing k mv ttl keys =>
    some ((s.onSystem fun sys => (sys.tick t).onWarp fun w =>
      { w with cache := w.cache.set t k mv ttl }).goto j (.ahead keys))
  | _ => none

end Steps

def scanStep : Machine (Healing T) ScanAction
  | s, .list j keys => s.listStep j keys
  | s, .cancel j => s.cancelStep j
  | s, .cacheGet j t => s.cacheGetStep j t
  | s, .storeGet j => s.storeGetStep j
  | s, .prepare j t d => s.prepareStep j t d
  | s, .cacheSet j t => s.cacheSetStep j t

end Healing

/-! ## A scan that is not interrupted -/

namespace Healing

/-- Some steps of a scan lead to a phase, with this validator and this Warp. -/
def Leads (s : Healing T) (j : ℕ) (ph : ScanPhase T) (r : Validator T × Warp T) : Prop :=
  ∃ as s', scanStep.run s as = some s' ∧ s'.scans j = ph ∧ (s'.validator, s'.system.warp) = r

variable {env : Env} {s t : Healing T} {j : ℕ} {k : Key} {keys : List Key} {ph : ScanPhase T}
  {r : Validator T × Warp T}

theorem scans_goto : (s.goto j ph).scans j = ph := Function.update_self ..

theorem leads_goto : (s.goto j ph).Leads j ph (s.validator, s.system.warp) :=
  ⟨[], _, rfl, scans_goto, rfl⟩

theorem Leads.step (h : t.Leads j ph r) (a : ScanAction) (hstep : scanStep s a = some t) :
    s.Leads j ph r := by
  obtain ⟨as, s', hrun, hs'⟩ := h
  exact ⟨a :: as, s', (scanStep.run_cons_of_step hstep as).trans hrun, hs'⟩

theorem leads_writing {mv : Value T} {ttl : Duration} (hj : s.scans j = .writing k mv ttl keys)
    (now : Instant) : s.Leads j (.ahead keys)
      (s.validator, { s.system.warp with cache := s.system.warp.cache.set now k mv ttl }) := by
  refine .step (t := (s.onSystem fun sys => (sys.tick now).onWarp fun w =>
    { w with cache := w.cache.set now k mv ttl }).goto j (.ahead keys)) leads_goto
    (.cacheSet j now) ?_
  simp only [scanStep, cacheSetStep, hj]

section

variable (hfails : ∀ c, env.fails c = none)
include hfails

theorem mismatch_eq (val : Validator T) (w : Warp T) : val.mismatch w env k =
    (w.cache.get (env.clock (.call (.cacheGet k))) k).bind fun v =>
      (w.store k).bind (val.differing v.data) := by
  rw [Validator.mismatch, Warp.cacheGet, Warp.storeGet, hfails, hfails]
  cases w.cache.get (env.clock (.call (.cacheGet k))) k with
  | none => rfl
  | some v => cases w.store k <;> rfl

theorem heal_eq (w : Warp T) (data : T) : w.heal env k data =
    { w.touch k (healTTL w k (env.strategyTTL k)) (env.clock (.operation k)) with
      cache := w.cache.set (env.clock (.call (.cacheSet k))) k
        (.written data (env.clock (.operation k))) (healTTL w k (env.strategyTTL k)) } := by
  rw [Warp.heal, healTTL]
  cases hreg : w.regs k with
  | none =>
    simp only [Warp.cacheSet, hfails, Warp.touch, hreg, Option.map_none]
    rw [← hreg, Function.update_eq_self]
  | some reg =>
    simp only [Warp.cacheSet, hfails]
    rfl

theorem leads_healing {sv : T} (hj : s.scans j = .healing k sv keys) :
    s.Leads j (.ahead keys) (s.validator, s.system.warp.heal env k sv) := by
  have hprepare : scanStep s (.prepare j (env.clock (.operation k)) (env.strategyTTL k)) = some
      ((s.onSystem fun sys => (sys.tick (env.clock (.operation k))).onWarp fun w => w.touch k
        (healTTL s.system.warp k (env.strategyTTL k)) (env.clock (.operation k))).goto j
          (.writing k (.written sv (env.clock (.operation k)))
            (healTTL s.system.warp k (env.strategyTTL k)) keys)) := by
    simp only [scanStep, prepareStep, hj]
  rw [heal_eq hfails]
  exact (leads_writing scans_goto _).step _ hprepare

theorem leads_cached {cv : T} (hj : s.scans j = .cached k cv keys) :
    s.Leads j (.ahead keys) (match (s.system.warp.store k).bind (s.validator.differing cv) with
      | none => (s.validator, s.system.warp)
      | some sv => (s.count.validator,
          if s.validator.mode = .autoHeal then s.system.warp.heal env k sv
          else s.system.warp)) := by
  cases hfound : (s.system.warp.store k).bind (s.validator.differing cv) with
  | none =>
    refine leads_goto.step (s := s) (.storeGet j) ?_
    simp only [scanStep, storeGetStep, hj, hfound]
  | some sv =>
    dsimp only
    by_cases hmode : s.validator.mode = .autoHeal
    · rw [if_pos hmode]
      refine .step (leads_healing hfails (s := s.count.goto j _) scans_goto) (.storeGet j) ?_
      simp only [scanStep, storeGetStep, hj, hfound, if_pos hmode]
    · rw [if_neg hmode]
      refine .step (leads_goto (s := s.count)) (.storeGet j) ?_
      simp only [scanStep, storeGetStep, hj, hfound, if_neg hmode]

/-- The steps at one key do what `Validator.scanKey` does. -/
theorem leads_scanKey (hj : s.scans j = .ahead (k :: keys)) :
    s.Leads j (.ahead keys) (Validator.scanKey env (s.validator, s.system.warp) k) := by
  rw [Validator.scanKey, mismatch_eq hfails]
  have hget : scanStep s (.cacheGet j (env.clock (.call (.cacheGet k)))) =
      some ((s.onSystem fun sys => sys.tick (env.clock (.call (.cacheGet k)))).goto j
        (match s.system.warp.cache.get (env.clock (.call (.cacheGet k))) k with
          | some v => .cached k v.data keys
          | none => .ahead keys)) := by
    simp only [scanStep, cacheGetStep, hj]
  refine .step ?_ _ hget
  cases s.system.warp.cache.get (env.clock (.call (.cacheGet k))) k with
  | none => exact leads_goto
  | some v => exact leads_cached hfails scans_goto

theorem leads_ahead (hj : s.scans j = .ahead keys) :
    s.Leads j (.ahead []) (keys.foldl (Validator.scanKey env) (s.validator, s.system.warp)) := by
  induction keys generalizing s with
  | nil => exact ⟨[], s, rfl, hj, rfl⟩
  | cons k keys ih =>
    obtain ⟨as, t, hrun, ht, hr⟩ := leads_scanKey hfails hj
    obtain ⟨as', s', hrun', hs'⟩ := ih ht
    rw [hr] at hs'
    exact ⟨as ++ as', s', by rw [Machine.run_append, hrun, Option.bind_some, hrun'], hs'⟩

/-- A scan that is not interrupted does what `Validator.scan` does. -/
theorem leads_scan (hj : s.scans j = .idle) (hkind : s.system.warp.storeKind ≠ .absent)
    (hkeys : ∀ k ∈ keys, (s.system.warp.store k).isSome = true) :
    s.Leads j (.ahead []) (s.validator.scan s.system.warp env keys) := by
  rw [Validator.scan, if_neg hkind]
  refine .step (leads_ahead hfails (s := s.goto j _) scans_goto) (.list j keys) ?_
  simp only [scanStep, listStep, hj]
  exact if_pos ⟨hkind, hkeys⟩

end

end Healing

/-! ## The machine -/

/-- The step is one of a `Set` that has been called. -/
def Action.ofSet : Action T → Bool
  | .readClock _ _ => true
  | .cacheGet _ _ => true
  | .storeGet _ => true
  | .cacheSet _ _ _ => true
  | .storeSet _ => true
  | .touch _ => true
  | _ => false

/-- A step of the `Set`, or of a scan. -/
inductive HealAction (T : Type) where
  | set (a : Action T)
  | scan (a : ScanAction)

namespace Healing

/-- The machine of a `Set` of `k` and the scans. -/
def machine (k : Key) : Machine (Healing T) (HealAction T)
  | s, .set a =>
    if a.ofSet then
      (System.writers k s.system a).map fun sys => { s with system := sys }
    else
      none
  | s, .scan a => if ∀ t ∈ a.reading, s.system.clock ≤ t then s.scanStep a else none

end Healing

end GoWarp.Core
