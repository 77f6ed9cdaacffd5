import GoWarp.Core.CommitResult
import GoWarp.Core.ReadYourWrites

/-!
# What GetOrSet returns and what it caches

On a miss `GetOrSet` returns the value of the loader, and writes it with
`Set`, which merges it with a stored value if the key has a merge function of
its own.  The value returned and the value written are the same exactly when
such a merge makes no difference.
-/

namespace GoWarp.Core

open Support Support.Program

variable {T : Type}

theorem Cache.get_eq_none_of_le {c : Cache T} {t t' : Instant} (hle : t ≤ t')
    {k : Key} (h : c.get t k = none) : c.get t' k = none := by
  cases hlater : c.get t' k with
  | none => rfl
  | some v => exact (h.symm.trans (Cache.get_of_le hle hlater)).symm

namespace Warp

variable {w : Warp T} {env : Env} {k : Key}

/-- The Warp whose key `GetOrSet` sets after its loader has answered. -/
def loaded (w : Warp T) (env : Env) (k : Key) : Warp T :=
  (w.ensureRegistered k).touch k
    (env.ttl k ((w.regs k).getD autoRegistration)) (env.clock (.fetch k))

theorem loaded_eq (w : Warp T) (env : Env) (k : Key) :
    ∃ regs, w.loaded env k = { w with regs := regs } := by
  cases hreg : w.regs k with
  | none | some reg => exact ⟨_, by rw [loaded, ensureRegistered, hreg]; rfl⟩

theorem regs_loaded (w : Warp T) (env : Env) (k : Key) : (w.loaded env k).regs k = some
      (((w.regs k).getD autoRegistration).touch (env.ttl k ((w.regs k).getD autoRegistration))
        (env.clock (.fetch k))) := by
  rw [loaded]
  exact regs_touch_self _ k (regs_ensureRegistered w k) _ _

theorem getOrSet_of_miss {loader : Loader T} {data : T} (hloader : loader.result = .ok data)
    (hworking : env.fails (.cacheGet k) = none)
    (hrecheck : loader.recheck.fails (.cacheGet k) = none)
    (hmiss : w.cache.get (env.clock (.call (.cacheGet k))) k = none)
    (hle : env.clock (.call (.cacheGet k)) ≤ loader.recheck.clock (.call (.cacheGet k))) :
    w.getOrSet env k loader = (Reply.found data,
      (exec (set loader.write k data) (w.loaded env k)).2) := by
  have hagain := Cache.get_eq_none_of_le hle hmiss
  have hcache : (w.ensureRegistered k).cache = w.cache := by
    cases hreg : w.regs k with
    | none => rw [ensureRegistered, hreg]
    | some reg => rw [ensureRegistered, hreg]
  simp only [getOrSet, getOrLoad, loadMiss, cacheGet, hworking, hrecheck,
    hcache, hmiss, hagain, hloader, loaded]

theorem data_newValue_of_miss_iff {now : Instant} (env : Env) (value : T)
    (hmiss : w.cache.get now k = none) :
    (w.newValue env k value (w.baseAt now k)).data = value ↔
      ∀ fn stored, w.storeKind ≠ .absent → w.merges k = some fn →
        w.store k = some stored → (fn stored value).getD value = value := by
  have hiff := Txn.data_newValue_baseAt_iff w env k value now
  rw [hmiss] at hiff
  rw [eq_comm]
  refine hiff.trans ?_
  simp

end Warp

/-- `GetOrSet` of a key in `ModeStrongLocal` that is not cached returns the
value of the loader.  The cache and the store hold that value, and a `Get`
before expiry returns it, exactly if the merge function of the key, if it has
one, makes nothing else of it and the stored value. -/
theorem getOrSet_shows_iff (w : Warp T) (env : Env) (k : Key) (loader : Warp.Loader T) (value : T)
    (hmode : ((w.regs k).getD Warp.autoRegistration).mode = .strongLocal)
    (hloader : loader.result = .ok value)
    (hworking : ∀ c, env.fails c = none ∧ loader.recheck.fails c = none ∧
      loader.write.fails c = none)
    (hmiss : w.cache.get (env.clock (.call (.cacheGet k))) k = none)
    (hrecheck : env.clock (.call (.cacheGet k)) ≤ loader.recheck.clock (.call (.cacheGet k)))
    (hwrite : loader.recheck.clock (.call (.cacheGet k)) ≤ loader.write.clock (.call (.cacheGet k)))
    (env' : Env) (hworking' : ∀ c, env'.fails c = none)
    (hlive : 0 < loader.write.effectiveTTL k ((w.regs k).getD Warp.autoRegistration) →
      env'.clock (.call (.cacheGet k)) ≤ loader.write.clock (.call (.cacheSet k)) +
          loader.write.effectiveTTL k ((w.regs k).getD Warp.autoRegistration)) :
    ((w.getOrSet env k loader).1 = Warp.Reply.found value ∧ (w.getOrSet env k loader).2.Shows k
          (env'.clock (.call (.cacheGet k))) value ∧
        ((w.getOrSet env k loader).2.get env' k).1 = Warp.Reply.found value) ↔
      ∀ fn stored, w.storeKind ≠ .absent → w.merges k = some fn →
        w.store k = some stored → (fn stored value).getD value = value := by
  have hreg := Warp.regs_loaded w env k
  rw [Warp.getOrSet_of_miss hloader (hworking _).1 (hworking _).2.1 hmiss
    hrecheck, Warp.exec_set_of_working hreg hmode fun c => (hworking c).2.2]
  -- the write finds nothing cached either
  obtain ⟨regs, hloaded⟩ := Warp.loaded_eq w env k
  have hlater : (w.loaded env k).cache.get (loader.write.clock (.call (.cacheGet k))) k = none := by
    rw [hloaded]
    exact Cache.get_eq_none_of_le (hrecheck.trans hwrite) hmiss
  have hdata := Warp.data_newValue_of_miss_iff (w := w.loaded env k) loader.write value hlater
  generalize (w.loaded env k).newValue loader.write k value _ = v at hdata ⊢
  have hshows := Warp.shows_wrote (w := w.loaded env k) v hlive
  have hget := Warp.get_of_shows (Warp.regs_wrote hreg v) hworking' hshows
  have hiff : v.data = value ↔ ∀ fn stored, w.storeKind ≠ .absent →
      w.merges k = some fn → w.store k = some stored →
      (fn stored value).getD value = value := by
    rw [hloaded] at hdata
    exact hdata
  rw [← hiff]
  constructor
  · rintro ⟨-, hvalue, -⟩
    exact Option.mem_unique hshows.cached hvalue.cached
  · rintro rfl
    exact ⟨rfl, hshows, hget⟩

/-- A loader that answers 5. -/
def fiveLoader : Warp.Loader ℕ := ⟨.ok 5, Warp.workingEnv, Warp.workingEnv⟩

/-- With a stored 10 and a merge function that adds, `GetOrSet` returns 5,
while the cache, the store and a `Get` that follows have 15. -/
theorem getOrSet_differs_counterWarp : (Txn.counterWarp.getOrSet Warp.workingEnv "a" fiveLoader).1 =
        Warp.Reply.found 5 ∧
      ((Txn.counterWarp.getOrSet Warp.workingEnv "a"
        fiveLoader).2.cache.get 0 "a").map Value.data = some 15 ∧
      (Txn.counterWarp.getOrSet Warp.workingEnv "a" fiveLoader).2.store "a" = some 15 ∧
      ((Txn.counterWarp.getOrSet Warp.workingEnv "a" fiveLoader).2.get
        Warp.workingEnv "a").1 = Warp.Reply.found 15 := by
  decide

/-- Without a merge function the loaded value replaces a stored 10. -/
theorem getOrSet_shows_emptyWarp :
    ((({ emptyWarp with store := fun _ => some 10 } : Warp ℕ).getOrSet
        Warp.workingEnv "a" fiveLoader).2.get Warp.workingEnv "a").1 =
      Warp.Reply.found 5 :=
  ((getOrSet_shows_iff { emptyWarp with store := fun _ => some 10 }
    Warp.workingEnv "a" fiveLoader 5 rfl rfl (fun _ => ⟨rfl, rfl, rfl⟩) rfl
    (Int.le_refl _) (Int.le_refl _) Warp.workingEnv (fun _ => rfl)
    (by decide)).mpr fun _ _ _ hcustom => by cases hcustom).2.2

end GoWarp.Core
