import GoWarp.Core.Loading

/-!
# Reading one's own writes

A key in `ModeStrongLocal` without a merge function of its own.  `Set` writes
the winner of the cached value and the new one by their timestamps, and the
cached value wins a tie.  A `Get` that follows returns what has been written,
so it returns the new value unless the clock has not advanced since the cached
value was written.
-/

namespace GoWarp.Core

open Support Support.Program

namespace Warp

variable {T : Type} {w : Warp T} {env : Env} {k : Key} {reg : Registration}

/-- What is cached and, if there is a store, what is stored is `data`. -/
structure Shows (w : Warp T) (k : Key) (now : Instant) (data : T) : Prop where
  cached : (w.cache.get now k).map Value.data = some data
  stored : w.storeKind ≠ .absent → w.store k = some data

theorem get_of_shows (hreg : w.regs k = some reg) (hworking : ∀ c, env.fails c = none) {data : T}
    (hshows : w.Shows k (env.clock (.call (.cacheGet k))) data) :
    (w.get env k).1 = Reply.found data := by
  obtain ⟨v, hv, rfl⟩ := Option.map_eq_some_iff.mp hshows.cached
  by_cases hstore : w.storeKind = .absent
  · rw [get, hreg, cacheGet, hworking, hv]
    dsimp only
    rw [getHit]
    split
    · rfl
    · dsimp only
      rw [if_neg fun h => h.2 hstore]
  · rw [get_of_coherent hreg hstore hworking, hshows.stored hstore]
    · rfl
    · intro v' hv'
      obtain rfl := Option.mem_unique hv hv'
      exact hshows.stored hstore

theorem Shows.sameAt {w' : Warp T} (h : w.SameAt k w') {now : Instant}
    {data : T} (hshows : w.Shows k now data) : w'.Shows k now data where
  cached := by
    rw [Cache.get, h.cache]
    exact hshows.cached
  stored hstore := by
    rw [h.store]
    exact hshows.stored (h.storeKind ▸ hstore)

theorem shows_wrote (v : Value T) {now : Instant} (hlive : 0 < env.effectiveTTL k reg → now ≤
      env.clock (.call (.cacheSet k)) + env.effectiveTTL k reg) :
    (w.wrote env k reg v).Shows k now v.data where
  cached := by
    rw [Cache.get, cache_wrote, Option.bind_some]
    by_cases hpos : 0 < env.effectiveTTL k reg
    · rw [(Cache.live_newEntry_iff hpos v _ now).mpr (hlive hpos)]
      rfl
    · rw [Cache.newEntry, if_neg hpos]
      rfl
  stored hstore := by
    rw [storeKind_wrote] at hstore
    rw [store_wrote, if_neg hstore]

/-! ## The winner of a write -/

theorem baseAt_of_default (hdefault : w.merges k = none) (now : Instant) :
    w.baseAt now k = w.cache.get now k := by
  rw [baseAt]
  rcases w.cache.get now k with _ | old
  · exact if_neg fun h => by simp [Engine.hasCustom, hdefault] at h
  · rfl

theorem data_newValue_eq_iff (hdefault : w.merges k = none) (value : T)
    (cached : Option (Value T)) :
    (w.newValue env k value cached).data = value ↔ ∀ old, cached = some old →
        old.timestamp < env.clock (.operation k) ∨ old.data = value := by
  cases cached with
  | none => exact ⟨fun _ _ h => (nomatch h), fun _ => rfl⟩
  | some old =>
    have hnew : w.newValue env k value (some old) =
        if old.timestamp < env.clock (.operation k) then
          Value.written value (env.clock (.operation k)) else old := by
      rw [newValue, Engine.mergeOver, Engine.merge, hdefault, Option.getD_some, Value.lastWriteWins]
      rcases old.vector <;> rfl
    have hforall : (∀ v, some old = some v →
        v.timestamp < env.clock (.operation k) ∨ v.data = value) ↔
        old.timestamp < env.clock (.operation k) ∨ old.data = value := by
      constructor
      · exact fun h => h old rfl
      · rintro h v hv
        cases hv
        exact h
    rw [hnew, hforall]
    split
    · rename_i hlater
      exact ⟨fun _ => .inl hlater, fun _ => rfl⟩
    · rename_i hlater
      exact ⟨.inr, fun h => h.resolve_left hlater⟩

end Warp

/-! ## The theorem -/

variable {T : Type}

theorem Access.sameAt_run [DecidableEq T] {k : Key} {w w' : Warp T}
    {steps : List (Env × Access T)} (hother : ∀ step ∈ steps, ¬step.2.On k)
    (hrun : Machine.run Access.step w steps = some w') : w.SameAt k w' := by
  refine Machine.run_invariant_of_allSteps Access.step (I := w.SameAt k) ?_ hrun
    (Machine.allSteps_of_forall Access.step hother w) (.refl k w)
  rintro s ⟨env, access⟩ s' hs hon hstep
  exact hs.trans (Access.sameAt_step hon hstep)

/-- After a `Set` and accesses that are not on the key, a `Get` before expiry
returns the value set and the store holds it, exactly if the value cached
before the `Set`, if any, was written at an earlier reading of the clock or is
the same. -/
theorem get_after_set_iff [DecidableEq T] (w : Warp T) (env : Env) (k : Key)
    (value : T) (reg : Registration) (hreg : w.regs k = some reg)
    (hmode : reg.mode = .strongLocal) (hdefault : w.merges k = none)
    (hworking : ∀ c, env.fails c = none) (steps : List (Env × Access T))
    (hother : ∀ step ∈ steps, ¬step.2.On k) (w' : Warp T)
    (hrun : Machine.run Access.step (exec (Warp.set env k value) w).2 steps =
      some w') (env' : Env) (hworking' : ∀ c, env'.fails c = none)
    (hlive : 0 < env.effectiveTTL k reg → env'.clock (.call (.cacheGet k)) ≤
        env.clock (.call (.cacheSet k)) + env.effectiveTTL k reg) :
    ((exec (Warp.set env k value) w).1 = .ok () → (w'.get env' k).1 = Warp.Reply.found value ∧
          (w'.storeKind ≠ .absent → w'.store k = some value)) ↔
      ∀ old, w.cache.get (env.clock (.call (.cacheGet k))) k = some old →
        old.timestamp < env.clock (.operation k) ∨ old.data = value := by
  rw [Warp.exec_set_of_working hreg hmode hworking, Warp.baseAt_of_default hdefault] at hrun ⊢
  rw [← Warp.data_newValue_eq_iff hdefault]
  generalize w.newValue env k value _ = v at hrun ⊢
  have hsame := Access.sameAt_run hother hrun
  have hshows := (Warp.shows_wrote v hlive).sameAt hsame
  have hreg' := hsame.regs.trans (Warp.regs_wrote hreg v)
  rw [Warp.get_of_shows hreg' hworking' hshows]
  constructor
  · intro h
    have hreply := (h rfl).1
    exact Option.some.inj (congrArg Warp.Reply.value hreply)
  · rintro rfl -
    exact ⟨rfl, hshows.stored⟩

/-! ## Two writes at one reading of the clock -/

/-- A Warp over a store, with one key in `ModeStrongLocal` and nothing cached
or stored. -/
def emptyWarp : Warp ℕ :=
  { Warp.uniform (Registration.new .strongLocal 60 TTLOptions.zero) with storeKind := .plain }

def firstWrite : Warp ℕ := (exec (Warp.set Warp.workingEnv "k" 1) emptyWarp).2

/-- The second of two writes at the same reading of the clock is lost: `Get`
returns the first value, and the store holds it. -/
theorem second_write_lost_emptyWarp :
    (exec (Warp.set Warp.workingEnv "k" 2) firstWrite).1 = .ok () ∧
      ((exec (Warp.set Warp.workingEnv "k" 2) firstWrite).2.get
        Warp.workingEnv "k").1 = Warp.Reply.found 1 ∧
      (exec (Warp.set Warp.workingEnv "k" 2) firstWrite).2.store "k" =
        some 1 := by
  decide

/-- The first write is read back, also after a write of another key. -/
theorem get_after_set_emptyWarp : ((exec (Warp.set Warp.workingEnv "l" 2) firstWrite).2.get
        Warp.workingEnv "k").1 = Warp.Reply.found 1 ∧
      ((exec (Warp.set Warp.workingEnv "l" 2) firstWrite).2.storeKind ≠ .absent →
        (exec (Warp.set Warp.workingEnv "l" 2) firstWrite).2.store "k" = some 1) :=
  (get_after_set_iff emptyWarp Warp.workingEnv "k" 1
    (.new .strongLocal 60 TTLOptions.zero) rfl rfl rfl
    (fun _ => rfl) [(Warp.workingEnv, .key "l" (.set 2))]
    (by simp [Access.On]) _ rfl Warp.workingEnv (fun _ => rfl)
    (by decide)).mpr (fun _ hcached => nomatch hcached) rfl

end GoWarp.Core
