import GoWarp.Core.Operations

/-!
# A write the store refuses

`Set` writes the cache before the store and does not take the cache write
back when the store refuses its part.  The next `Get` then answers from the
value that was never stored.
-/

namespace GoWarp.Core

open Support Support.Program

namespace Warp

variable {T : Type} {w : Warp T} {env : Env} {k : Key} {reg : Registration}

/-- The reply of a `Get` that finds `cached` in the cache, when no call
fails. -/
def answer (w : Warp T) (env : Env) (k : Key) (reg : Registration)
    (cached : Option (Value T)) : Reply T :=
  match cached with
  | none =>
    match w.store k with
    | some data => Reply.found data
    | none => Reply.failed .notFound
  | some v =>
    if w.plainHit reg = false ∧ isStale reg v (env.clock (.operation k)) ∧
        ¬ (0 < reg.ttlOpts.softTimeout ∧ env.timedOut) then
      match w.store k with
      | some data => Reply.found data
      | none => ⟨some v.data, some .notFound⟩
    else
      Reply.found v.data

theorem getHit_fst (hstore : w.storeKind ≠ .absent)
    (hworking : ∀ c, env.fails c = none) (v : Value T) :
    (w.getHit env k reg v).1 = w.answer env k reg (some v) := by
  rw [getHit, answer]
  split
  next hplain => rw [if_neg (by simp [hplain])]
  next hplain =>
    rw [Bool.not_eq_true] at hplain
    by_cases hstale : isStale reg v (env.clock (.operation k)) = true
    · rw [if_pos ⟨hstale, hstore⟩, getStale]
      by_cases hsoft : 0 < reg.ttlOpts.softTimeout ∧ env.timedOut = true
      · rw [if_pos hsoft, if_neg (by simp [hsoft])]
      · have hfetch : w.plainHit reg = false ∧ isStale reg v (env.clock (.operation k)) = true ∧
            ¬ (0 < reg.ttlOpts.softTimeout ∧ env.timedOut = true) :=
          ⟨hplain, hstale, hsoft⟩
        rw [if_neg hsoft, storeGet, hworking]
        dsimp only
        rw [if_pos hfetch]
        cases w.store k <;> rfl
    · rw [if_neg (by simp [hstale]), if_neg (by simp [hstale])]

theorem getMiss_fst (hstore : w.storeKind ≠ .absent) (hworking : ∀ c, env.fails c = none) :
    (w.getMiss env k reg).1 = w.answer env k reg none := by
  rw [getMiss, if_neg hstore, answer, storeGet, hworking]
  cases w.store k <;> rfl

theorem get_fst (hreg : w.regs k = some reg) (hstore : w.storeKind ≠ .absent)
    (hworking : ∀ c, env.fails c = none) :
    (w.get env k).1 = w.answer env k reg (w.cache.get (env.clock (.call (.cacheGet k))) k) := by
  rw [get, hreg, cacheGet, hworking]
  cases w.cache.get (env.clock (.call (.cacheGet k))) k with
  | none => exact getMiss_fst hstore hworking
  | some v => exact getHit_fst hstore hworking v

/-- What a `Get` replies when the store has answered. -/
def Reply.ofStored : Option T → Reply T
  | some data => Reply.found data
  | none => Reply.failed .notFound

theorem get_of_coherent (hreg : w.regs k = some reg)
    (hstore : w.storeKind ≠ .absent) (hworking : ∀ c, env.fails c = none)
    (hcoherent : ∀ v, w.cache.get (env.clock (.call (.cacheGet k))) k =
      some v → w.store k = some v.data) :
    (w.get env k).1 = Reply.ofStored (w.store k) := by
  rw [get_fst hreg hstore hworking]
  cases hget : w.cache.get (env.clock (.call (.cacheGet k))) k with
  | none => cases hstored : w.store k <;> rw [answer, hstored] <;> rfl
  | some v =>
    rw [answer, hcoherent v hget]
    dsimp only
    split
    · rfl
    · rfl

/-! ## The course of a Set -/

/-- The value a `Set` over `old` writes. -/
def newValue (w : Warp T) (env : Env) (k : Key) (value : T) (old : Option (Value T)) : Value T :=
  w.merges.mergeOver k old (Value.written value (env.clock (.operation k)))

/-- The Warp after the cache write of a `Set` over `old`. -/
def halfWritten (w : Warp T) (env : Env) (k : Key) (reg : Registration)
    (value : T) (old : Option (Value T)) : Warp T :=
  w.cacheSet env k (w.newValue env k value old) (env.effectiveTTL k reg)

theorem exec_set_local (env : Env) (hreg : w.regs k = some reg)
    (hmode : reg.mode ≠ .strongDistributed) (value : T) :
    ∃ f : Unit → Program (Warp T) Err Unit, (∀ s, (exec (f ()) s).1 = .ok ()) ∧
      exec (set env k value) w =
        match w.mergeBase env k with
        | .error e => (.error e, w)
        | .ok old => exec (applySet env k reg (w.newValue env k value old) >>= f) w := by
  rw [set, exec_bind_ok (exec_get w), hreg]
  dsimp only
  rw [exec_bind, exec_ofExcept]
  cases hm : reg.mode with
  | strongLocal =>
    refine ⟨pure, fun s => rfl, ?_⟩
    rcases w.mergeBase env k with e | old
    · rfl
    · change _ = exec (_ >>= pure) w
      rw [bind_pure]
      rfl
  | eventualDistributed =>
    refine ⟨fun _ => if w.hasBus ∧ env.busHealthy then
      modify fun w => w.spawn (.publish k) else pure (), fun s => ?_, ?_⟩
    · split <;> rfl
    · rcases w.mergeBase env k with e | old <;> rfl
  | strongDistributed => exact absurd hm hmode

theorem exec_applySet_of_cacheFault {e : Err} {v : Value T}
    (h : w.cacheFault env (.cacheSet k) = some e) :
    exec (applySet env k reg v) w = (.error e, w) := by
  rw [applySet, exec_bind_ok (exec_get w), h]
  rfl

theorem exec_applySet_of_storeFault {e : Err} (reg : Registration) (v : Value T)
    (hstore : w.storeKind ≠ .absent) (hcache : w.cacheFault env (.cacheSet k) = none)
    (h : env.fails (.storeSet k) = some e) :
    exec (applySet env k reg v) w = (.error e, w.cacheSet env k v (env.effectiveTTL k reg)) := by
  rw [applySet, exec_bind_ok (exec_get w), hcache, if_pos hstore, h]
  rfl

theorem exec_applySet_of_no_fault (reg : Registration) (v : Value T)
    (hcache : w.cacheFault env (.cacheSet k) = none) (h : env.fails (.storeSet k) = none) :
    ∃ w', exec (applySet env k reg v) w = (.ok (), w') := by
  rw [applySet, exec_bind_ok (exec_get w), hcache, h]
  split
  · exact ⟨_, rfl⟩
  · exact ⟨_, rfl⟩

theorem exec_set_cases (env : Env) (hreg : w.regs k = some reg)
    (hmode : reg.mode ≠ .strongDistributed) (hstore : w.storeKind ≠ .absent) (value : T) :
    (∃ w', exec (set env k value) w = (.ok (), w') ∧ env.fails (.storeSet k) = none) ∨
    (∃ e, exec (set env k value) w = (.error e, w) ∧
      ∀ old, w.mergeBase env k = .ok old → env.fails (.cacheSet k) ≠ none) ∨
    (∃ e old, exec (set env k value) w = (.error e, w.halfWritten env k reg value old) ∧
      w.mergeBase env k = .ok old ∧ env.fails (.cacheSet k) = none ∧
      env.fails (.storeSet k) ≠ none) := by
  obtain ⟨f, hf, hset⟩ := exec_set_local env hreg hmode value
  rw [hset]
  rcases hbase : w.mergeBase env k with e | old
  · exact .inr (.inl ⟨e, rfl, fun old hold => by cases hold⟩)
  dsimp only
  cases hcache : w.cacheFault env (.cacheSet k) with
  | some e =>
    refine .inr (.inl ⟨e, ?_, fun _ _ hnone => ?_⟩)
    · exact exec_bind_error (exec_applySet_of_cacheFault hcache)
    · rw [cacheFault, hnone, ite_self] at hcache
      cases hcache
  | none =>
    cases hput : env.fails (.storeSet k) with
    | none =>
      obtain ⟨w', hw'⟩ := exec_applySet_of_no_fault reg (w.newValue env k value old) hcache hput
      refine .inl ⟨(exec (f ()) w').2, ?_, rfl⟩
      rw [exec_bind_ok hw', ← hf w']
    | some e =>
      have hexec := exec_bind_error (f := f)
        (exec_applySet_of_storeFault reg (w.newValue env k value old) hstore hcache hput)
      cases hfail : env.fails (.cacheSet k) with
      | none =>
        exact .inr (.inr ⟨e, old, hexec, rfl, rfl, Option.some_ne_none e⟩)
      | some e' =>
        refine .inr (.inl ⟨e, ?_, fun _ _ => Option.some_ne_none e'⟩)
        rw [hexec, cacheSet, hfail]

/-! ## The theorem -/

theorem get_halfWritten (hreg : w.regs k = some reg) (hstore : w.storeKind ≠ .absent) {env' : Env}
    (hworking : ∀ c, env'.fails c = none) (hcache : env.fails (.cacheSet k) = none) (value : T)
    (old : Option (Value T)) :
    ((w.halfWritten env k reg value old).get env' k).1 =
      w.answer env' k reg ((Cache.newEntry (env.clock (.call (.cacheSet k)))
        (w.newValue env k value old) (env.effectiveTTL k reg)).live
          (env'.clock (.call (.cacheGet k)))) := by
  rw [halfWritten, cacheSet, hcache]
  refine (get_fst (w := { w with cache := w.cache.set _ k _ _ }) hreg hstore hworking).trans ?_
  rw [Cache.get_set_self]
  rfl

/-- After a `Set` that fails, the next `Get` answers as if the `Set` had not
been called, and the store is unchanged, exactly when the failure is not one
of the store after the cache has taken the value, or the answer from the
merged value is the one from the old state. -/
theorem set_error_invisible_iff (w : Warp T) (env env' : Env) (k : Key)
    (value : T) (reg : Registration) (hreg : w.regs k = some reg)
    (hmode : reg.mode ≠ .strongDistributed) (hstore : w.storeKind ≠ .absent)
    (hworking : ∀ c, env'.fails c = none) :
    ((exec (set env k value) w).1 ≠ .ok () →
        ((exec (set env k value) w).2.get env' k).1 = (w.get env' k).1 ∧
          (exec (set env k value) w).2.store k = w.store k) ↔
      ∀ old, w.mergeBase env k = .ok old → env.fails (.cacheSet k) = none →
        env.fails (.storeSet k) ≠ none →
        w.answer env' k reg ((Cache.newEntry (env.clock (.call (.cacheSet k)))
          (w.newValue env k value old) (env.effectiveTTL k reg)).live
            (env'.clock (.call (.cacheGet k)))) =
          w.answer env' k reg (w.cache.get (env'.clock (.call (.cacheGet k))) k) := by
  rcases exec_set_cases env hreg hmode hstore value with
    ⟨w', hexec, hput⟩ | ⟨e, hexec, hnone⟩ | ⟨e, old, hexec, hbase, hcache, hput⟩
  · rw [hexec]
    exact ⟨fun _ old _ _ hfail => absurd hput hfail, fun _ herr => absurd rfl herr⟩
  · rw [hexec]
    exact ⟨fun _ old hold hcache _ => absurd hcache (hnone old hold), fun _ _ => ⟨rfl, rfl⟩⟩
  · have hget := get_halfWritten hreg hstore hworking hcache value old
    rw [hexec, get_fst hreg hstore hworking]
    constructor
    · intro h old' hold' _ _
      rw [hbase, Except.ok.injEq] at hold'
      subst hold'
      rw [← hget]
      exact (h (by simp)).1
    · intro h _
      refine ⟨hget.trans (h old hbase hcache hput), ?_⟩
      rw [halfWritten, cacheSet, hcache]

/-- A Warp with one key in `ModeStrongLocal`, which caches and stores 1. -/
def localWarp : Warp ℕ :=
  { Warp.uniform (Registration.new .strongLocal 0 TTLOptions.zero) with
    cache := fun _ => some ⟨Value.written 1 0, none⟩
    store := fun _ => some 1
    storeKind := .plain }

/-- A world in which the store refuses writes. -/
def readOnlyEnv : Env :=
  { Env.still 1 with
    fails := fun c =>
      match c with
      | .storeSet _ => some (.component 0)
      | _ => none }

def workingEnv : Env := .still 2

/-- The store refuses to replace 1 by 2, and `Get` answers 2. -/
theorem set_error_visible_localWarp :
    (exec (set readOnlyEnv "k" 2) localWarp).1 = .error (.component 0) ∧
      (localWarp.get workingEnv "k").1 = Reply.found 1 ∧
      ((exec (set readOnlyEnv "k" 2) localWarp).2.get workingEnv "k").1 =
        Reply.found 2 := by
  decide

/-- Writing the value that is there already cannot be seen. -/
theorem set_error_invisible_localWarp :
    ((exec (set readOnlyEnv "k" 1) localWarp).2.get workingEnv "k").1 =
        (localWarp.get workingEnv "k").1 ∧
      (exec (set readOnlyEnv "k" 1) localWarp).2.store "k" =
        localWarp.store "k" := by
  have hbase : localWarp.mergeBase readOnlyEnv "k" = .ok (some (.written 1 0)) := rfl
  refine (set_error_invisible_iff localWarp readOnlyEnv workingEnv "k" 1
    (.new .strongLocal 0 TTLOptions.zero) rfl (by decide)
    (by decide) (fun _ => rfl)).mpr ?_ (by decide)
  intro old hold _ _
  rw [hbase, Except.ok.injEq] at hold
  subst hold
  decide

end Warp

end GoWarp.Core
