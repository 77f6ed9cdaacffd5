import GoWarp.Core.Loading

/-!
# The TTLs passed to the cache

The places that write the cache compute the TTL of an entry and the TTL after
which a value is stale one by one.  `Access.passedTTL` lists what they pass to
`cache.Set`, and `Access.leaves_step` ties the list to the cache.

Apart from a scan and from the goroutines, every access passes a TTL that the
registration grants, extended by its grace period.  What the granted TTLs keep
about a registration, every run keeps.
-/

namespace GoWarp.Core

open Support Support.Program
open Option (getD_some ite_none_right_eq_some map_some mem_unique)

variable {T : Type}

namespace Warp

section PassedTTL

variable (w : Warp T) (env : Env) (k : Key)

/-- The TTL that `GetOrSet` passes to `cache.Set` on a hit. -/
def loadHitTTL (reg : Registration) (v : Value T) (loaded : Except Err T) :
    Option Duration :=
  let now := env.clock (.operation k)
  if isStale reg v now then
    if 0 < reg.ttlOpts.softTimeout ∧ env.timedOut then
      none
    else
      match loaded with
      | .error _ => none
      | .ok _ =>
        some (wrap64 ((if reg.hasStrategy then env.strategyTTL k
          else reg.currentTTL) + reg.ttlOpts.failSafeGracePeriod))
  else if reg.ttlOpts.sliding ∨ 0 < reg.ttlOpts.freqThreshold then
    some (wrap64 (slidTTL reg (env.strategyTTL k) now + reg.ttlOpts.failSafeGracePeriod))
  else
    none

/-- The TTL that the `Set` inside `GetOrSet` passes to `cache.Set`. -/
def loadMissTTL (reg : Registration) (loader : Loader T) : Option Duration :=
  match w.cacheGet loader.recheck k, loader.result with
  | .ok none, .ok data =>
    ((w.touch k (env.ttl k reg) (env.clock (.fetch k))).setWrite
      loader.write k data).map CacheWrite.ttl
  | _, _ => none

/-- The TTL that `GetOrSet` passes to `cache.Set`. -/
def getOrLoadTTL (reg : Registration) (loader : Loader T) : Option Duration :=
  match w.cacheGet env k with
  | .error _ => none
  | .ok (some v) => loadHitTTL env k reg v loader.result
  | .ok none => w.loadMissTTL env k reg loader

/-- The TTL that `Warmup` passes to `cache.Set`. -/
def warmTTL : Option Duration :=
  match w.regs k, w.storeGet env k with
  | some reg, .ok (some _) => some (env.effectiveTTL k reg)
  | _, _ => none

/-- The TTL that `validatorCache.Set` passes to `cache.Set`. -/
def healTTL : Duration :=
  match w.regs k with
  | none => 0
  | some reg => env.ttl k reg

/-- The TTL that a goroutine which has captured `currentTTL` passes to
`cache.Set`. -/
def fetchedTTL (currentTTL : Duration) (fetched : Option T) :
    Option Duration :=
  match w.regs k, fetched with
  | some reg, some _ =>
    some (wrap64 ((if reg.hasStrategy then env.strategyTTL k
      else currentTTL) + reg.ttlOpts.failSafeGracePeriod))
  | _, _ => none

/-- The TTL that a goroutine passes to `cache.Set` for `k`. -/
def taskTTL (fetched : Option T) : Task → Option Duration
  | .publish _ => none
  | .softFill k' currentTTL =>
    if k' = k then w.fetchedTTL env k currentTTL fetched else none
  | .eagerRefresh k' currentTTL => if k' = k then w.fetchedTTL env k currentTTL fetched else none

end PassedTTL

/-- An access that passes `ttl` to `cache.Set` for `k`, if anything, leaves
what was cached, or nothing, or an entry with that TTL, cached at one of the
times. -/
def Leaves (k : Key) (times : List Instant) (w w' : Warp T) (ttl : Option Duration) : Prop :=
  w'.cache k = w.cache k ∨ w'.cache k = none ∨
    ∃ now ∈ times, ∃ v d, ttl = some d ∧ w'.cache k = some (Cache.newEntry now v d)

end Warp

/-- The TTL that an access passes to `cache.Set` for `k`, if it comes to that
call. -/
def Access.passedTTL (k : Key) (w : Warp T) (env : Env) : Access T → Option Duration
  | .key k' op => if k' = k then (op.write w env k).map CacheWrite.ttl else none
  | .getOrSet k' loader =>
    if k' = k then
      (w.ensureRegistered k).getOrLoadTTL env k ((w.regs k).getD Warp.autoRegistration) loader
    else
      none
  | .warmup keys _ =>
    if w.storeKind ≠ .absent ∧ k ∈ keys then w.warmTTL env k else none
  | .commit txn _ =>
    if k ∈ txn.sets then (w.regs k).map (env.effectiveTTL k) else none
  | .scan val keys _ =>
    if val.Heals w env keys k then some (w.healTTL env k) else none
  | .task started fetched => w.taskTTL env k fetched started

/-- The clock reading of `cache.Set`. -/
def Env.setTime (env : Env) (k : Key) : Instant := env.clock (.call (.cacheSet k))

/-- When an access calls `cache.Set` for `k`; `GetOrSet` has a `Set` inside. -/
def Access.setTimes (k : Key) (env : Env) : Access T → List Instant
  | .getOrSet _ loader => [env.setTime k, loader.write.setTime k]
  | _ => [env.setTime k]

namespace Warp.Leaves

variable {k : Key} {times : List Instant} {w w₁ w' : Warp T} {env : Env} {ttl : Option Duration}

theorem of_cache_eq (h : w'.cache k = w.cache k) : Leaves k times w w' ttl := .inl h

theorem mono (h : Leaves k [env.setTime k] w w' ttl) (hmem : env.setTime k ∈ times) :
    Leaves k times w w' ttl := by
  refine h.imp_right (.imp_right ?_)
  rintro ⟨now, hnow, hnew⟩
  obtain rfl := List.mem_singleton.mp hnow
  exact ⟨_, hmem, hnew⟩

theorem cacheSet (env : Env) (v : Value T) (d : Duration) :
    Leaves k [env.setTime k] w (w.cacheSet env k v d) (some d) := by
  rw [Warp.cacheSet]
  split
  · exact .inl rfl
  · exact .inr (.inr ⟨_, List.mem_singleton.mpr rfl, v, d, rfl, Function.update_self _ _ _⟩)

theorem congr_right (h : Leaves k times w w₁ ttl) (heq : w'.cache k = w₁.cache k) :
    Leaves k times w w' ttl := by
  rw [Leaves, heq]
  exact h

theorem congr_left (h : Leaves k times w₁ w' ttl) (heq : w₁.cache k = w.cache k) :
    Leaves k times w w' ttl := by
  rw [Leaves, ← heq]
  exact h

theorem issue (env : Env) (write : Option (CacheWrite T)) :
    Leaves k [env.setTime k] w (w.issue env k write) (write.map CacheWrite.ttl) := by
  cases write with
  | none => exact .inl rfl
  | some write => exact cacheSet env _ _

theorem fill (data : T) (d : Duration) (reg : Registration) :
    Leaves k [env.setTime k] w (w.fill env k data d reg)
      (some (wrap64 (d + reg.ttlOpts.failSafeGracePeriod))) :=
  (issue env (some (fillWrite env k data d reg))).congr_right (congrFun (cache_fill data d) k)

theorem slide (reg : Registration) (v : Value T) (now : Instant) :
    Leaves k [env.setTime k] w (w.slide env k reg v now)
      (if reg.ttlOpts.sliding ∨ 0 < reg.ttlOpts.freqThreshold then
        some (wrap64 (slidTTL reg (env.strategyTTL k) now +
          reg.ttlOpts.failSafeGracePeriod)) else none) := by
  rw [Warp.slide]
  split
  · exact (cacheSet env v _).congr_left rfl
  · exact of_cache_eq rfl

theorem keyOp (op : KeyOp T) :
    Leaves k [env.setTime k] w (op.run w env k).2 ((op.write w env k).map CacheWrite.ttl) := by
  cases op with
  | get =>
    exact (issue env (w.getWrite env k)).congr_right (congrFun (cache_get w env k) k)
  | set value =>
    rw [KeyOp.run, KeyOp.written_snd]
    exact (issue env (w.setWrite env k value)).congr_right (congrFun (cache_set w env k value) k)
  | invalidate =>
    rw [KeyOp.run, KeyOp.written_snd]
    refine preserves_invalidate (P := fun w' => Leaves k [env.setTime k] w w' none) ?_ ?_ w
      (of_cache_eq rfl)
    · intro w' hw'
      rw [Warp.cacheInvalidate]
      split
      · exact hw'
      · exact .inr (.inl (Function.update_self _ _ _))
    · exact fun w' _ _ hw' _ _ => hw'

theorem ensureRegistered (h : Leaves k times (w.ensureRegistered k) w' ttl) :
    Leaves k times w w' ttl := by
  refine h.congr_left ?_
  rw [Warp.ensureRegistered]
  split
  · rfl
  · rfl

theorem getOrLoad (reg : Registration) (loader : Loader T) :
    Leaves k [env.setTime k, loader.write.setTime k] w (w.getOrLoad env k reg loader).2
      (w.getOrLoadTTL env k reg loader) := by
  rw [Warp.getOrLoad, getOrLoadTTL]
  rcases w.cacheGet env k with e | _ | v
  · exact of_cache_eq rfl
  · change Leaves k _ w (w.loadMiss env k reg loader).2 (w.loadMissTTL env k reg loader)
    rw [loadMiss, loadMissTTL]
    rcases w.cacheGet loader.recheck k with e | _ | v
    · exact of_cache_eq rfl
    · rcases loader.result with e | data
      · exact of_cache_eq rfl
      · exact (((issue loader.write _).congr_right (congrFun
          (cache_set (w.touch k _ _) loader.write k data) k)).congr_left rfl).mono (by simp)
    · exact of_cache_eq rfl
  · have hhit : Leaves k [env.setTime k] w (w.loadHit env k reg v loader.result).2
        (loadHitTTL env k reg v loader.result) := by
      unfold loadHit loadHitTTL
      dsimp only
      split
      · unfold loadStale
        split
        · exact of_cache_eq rfl
        · rcases loader.result with e | data
          · exact of_cache_eq rfl
          · exact fill data _ reg
      · exact slide reg v _
    exact hhit.mono List.mem_cons_self

theorem warm : Leaves k [env.setTime k] w (w.warm env k) (w.warmTTL env k) := by
  rw [Warp.warm, warmTTL]
  rcases w.regs k with _ | reg
  · exact of_cache_eq rfl
  · rcases w.storeGet env k with e | _ | data
    · exact of_cache_eq rfl
    · exact of_cache_eq rfl
    · exact fill data _ reg

theorem heal (data : T) :
    Leaves k [env.setTime k] w (w.heal env k data) (some (w.healTTL env k)) := by
  rw [Warp.heal, healTTL]
  rcases w.regs k with _ | reg
  · exact cacheSet env _ _
  · exact (cacheSet env _ _).congr_left rfl

theorem runTask (fetched : Option T) (task : Task) :
    Leaves k [env.setTime k] w (w.runTask env fetched task) (w.taskTTL env k fetched task) := by
  by_cases hk : k = task.key
  · subst hk
    cases task with
    | publish k => exact of_cache_eq rfl
    | softFill k currentTTL =>
      change Leaves k _ w (w.runTask env fetched (.softFill k currentTTL))
        (if k = k then w.fetchedTTL env k currentTTL fetched else none)
      rw [if_pos rfl]
      unfold fetchedTTL Warp.runTask
      dsimp only
      rcases w.regs k with _ | reg
      · exact of_cache_eq rfl
      · rcases fetched with _ | data
        · exact of_cache_eq rfl
        · exact cacheSet env _ _
    | eagerRefresh k currentTTL =>
      change Leaves k _ w (w.runTask env fetched (.eagerRefresh k currentTTL))
        (if k = k then w.fetchedTTL env k currentTTL fetched else none)
      rw [if_pos rfl]
      unfold fetchedTTL Warp.runTask
      dsimp only
      rcases w.regs k with _ | reg
      · exact of_cache_eq rfl
      · rcases fetched with _ | data
        · exact of_cache_eq rfl
        · exact fill data _ reg
  · exact of_cache_eq ((SameAt.refl k w).runTask env fetched hk).cache

theorem warmup {keys : List Key} (hnodup : keys.Nodup) (hk : k ∈ keys) :
    Leaves k [env.setTime k] w (w.warmup env keys)
      (if w.storeKind ≠ .absent ∧ k ∈ keys then w.warmTTL env k else none) := by
  rw [Warp.warmup]
  split
  · exact of_cache_eq rfl
  next hstore =>
    rw [if_pos ⟨hstore, hk⟩]
    rw [← keys.map_id] at hnodup
    obtain ⟨w₁, hbefore, hafter⟩ := foldl_of_mem (R := SameAt k)
      (f := .warm env) (.refl k) SameAt.trans
      (fun k' _ hne s => (SameAt.stable s env (Ne.symm hne)).warm (SameAt.refl k s)) hnodup hk w
    have httl : w₁.warmTTL env k = w.warmTTL env k := by
      rw [warmTTL, warmTTL, storeGet, storeGet, hbefore.regs, hbefore.store]
    rw [← httl]
    exact (warm.congr_left hbefore.cache).congr_right hafter.cache

theorem commitStable (txn : Txn T) : CommitStable w env txn fun w' => Leaves k [env.setTime k] w w'
      (if k ∈ txn.sets then (w.regs k).map (env.effectiveTTL k) else none) where
  cacheSet w' k' v reg hmem hreg h := by
    by_cases hk : k' = k
    · subst hk
      rw [if_pos hmem, hreg, map_some] at h ⊢
      rw [Warp.cacheSet]
      split
      · exact h
      · exact .inr (.inr ⟨_, List.mem_singleton.mpr rfl, v, _, rfl, Function.update_self _ _ _⟩)
    · exact h.congr_right ((SameAt.refl k w').cacheSet env (Ne.symm hk) v _).cache
  cacheInvalidate w' k' _ h := by
    by_cases hk : k' = k
    · subst hk
      rw [Warp.cacheInvalidate]
      split
      · exact h
      · exact .inr (.inl (Function.update_self _ _ _))
    · exact h.congr_right ((SameAt.refl k w').cacheInvalidate env (Ne.symm hk)).cache
  store _ _ _ h := h
  touch _ _ _ _ _ _ h := h

end Warp.Leaves

/-- A scan finds `k` as it was before the scan. -/
structure Validator.SameAt (k : Key) (s s' : Validator T × Warp T) : Prop where
  mode : s'.1.mode = s.1.mode
  digest : s'.1.digest = s.1.digest
  warp : s.2.SameAt k s'.2

namespace Validator.SameAt

variable {k : Key} {s s' s'' : Validator T × Warp T} {env : Env}

theorem refl (k : Key) (s : Validator T × Warp T) : SameAt k s s :=
  ⟨rfl, rfl, Warp.SameAt.refl k s.2⟩

theorem trans (h : SameAt k s s') (h' : SameAt k s' s'') : SameAt k s s'' :=
  ⟨h'.mode.trans h.mode, h'.digest.trans h.digest, h.warp.trans h'.warp⟩

theorem scanKey (s : Validator T × Warp T) {k' : Key} (hk : k' ≠ k) :
    SameAt k s (Validator.scanKey env s k') where
  mode := by
    rw [Validator.scanKey]
    split
    · rfl
    · rfl
  digest := by
    rw [Validator.scanKey]
    split
    · rfl
    · rfl
  warp := (Warp.SameAt.stable s.2 env (.symm hk)).scanKey (Warp.SameAt.refl k s.2)

theorem mismatch (h : SameAt k s s') (env : Env) :
    s'.1.mismatch s'.2 env k = s.1.mismatch s.2 env k := by
  rw [Validator.mismatch, Validator.mismatch, Warp.cacheGet, Warp.cacheGet,
    Warp.storeGet, Warp.storeGet, Cache.get, Cache.get, h.digest,
    h.warp.cache, h.warp.store, h.warp.resilient]

end Validator.SameAt

theorem Validator.leaves_scan {k : Key} {w : Warp T} {env : Env}
    (val : Validator T) {keys : List Key} (hnodup : keys.Nodup) (hk : k ∈ keys) :
    w.Leaves k [env.setTime k] (val.scan w env keys).2
      (if val.Heals w env keys k then some (w.healTTL env k) else none) := by
  rw [Validator.scan]
  by_cases hstore : w.storeKind = .absent
  · rw [if_pos hstore]
    exact .of_cache_eq rfl
  rw [if_neg hstore]
  rw [← keys.map_id] at hnodup
  obtain ⟨s, hbefore, hafter⟩ := foldl_of_mem (R := SameAt k)
    (f := Validator.scanKey env) (SameAt.refl k) SameAt.trans
    (fun k' _ hne s => .scanKey s hne) hnodup hk (val, w)
  refine .congr_right ?_ hafter.warp.cache
  refine .congr_left ?_ hbefore.warp.cache
  rw [Validator.scanKey, hbefore.mismatch env, hbefore.mode]
  cases hfound : val.mismatch w env k with
  | none => exact .of_cache_eq rfl
  | some stored =>
    dsimp only
    by_cases hmode : val.mode = .autoHeal
    · have hheals : val.Heals w env keys k :=
        ⟨hstore, hmode, hk, by rw [hfound]; rfl⟩
      have httl : s.2.healTTL env k = w.healTTL env k := by
        rw [Warp.healTTL, Warp.healTTL, hbefore.warp.regs]
      rw [if_pos hmode, if_pos hheals, ← httl]
      exact .heal stored
    · rw [if_neg hmode]
      exact .of_cache_eq rfl

theorem Access.leaves_step [DecidableEq T] {k : Key} {w w' : Warp T} {env : Env} {access : Access T}
    (hstep : Access.step w (env, access) = some w') :
    w.Leaves k (access.setTimes k env) w' (access.passedTTL k w env) := by
  by_cases hon : access.On k
  swap
  · exact .of_cache_eq (Access.sameAt_step hon hstep).cache
  cases access with
  | key k' op =>
    cases hstep
    obtain rfl : k' = k := hon
    rw [Access.passedTTL, if_pos rfl]
    exact .keyOp op
  | getOrSet k' loader =>
    cases hstep
    obtain rfl : k' = k := hon
    rw [Access.passedTTL, if_pos rfl]
    exact (Warp.Leaves.getOrLoad _ loader).ensureRegistered
  | warmup keys nodup =>
    cases hstep
    exact .warmup nodup hon
  | commit txn order =>
    cases hstep
    exact (Warp.Leaves.commitStable txn).commit (Warp.Leaves.of_cache_eq rfl) order
  | scan val keys nodup =>
    cases hstep
    exact val.leaves_scan nodup hon
  | task started fetched =>
    rw [Access.step] at hstep
    split at hstep
    · cases hstep
      exact (.runTask (w := w.takeTask started) fetched started)
    · cases hstep

/-! ## Where the TTLs come from -/

theorem wrap64_of_range {d : Duration} (hd : -2 ^ 63 ≤ d ∧ d < 2 ^ 63) : wrap64 d = d :=
  Int.bmod_eq_of_le hd.1 hd.2

/-- The TTL that a goroutine which fills `k` has captured. -/
def Task.capturedTTL (k : Key) : Task → Option Duration
  | .publish _ => none
  | .softFill k' currentTTL => if k' = k then some currentTTL else none
  | .eagerRefresh k' currentTTL => if k' = k then some currentTTL else none

/-- The registration grants the TTL which the grace period extends to `d`. -/
def Registration.Extends (reg : Registration) (k : Key) (d : Duration) : Prop :=
  ∃ (env : Env) (ttl : Duration), env.Grants k reg ttl ∧
    d = wrap64 (ttl + reg.ttlOpts.failSafeGracePeriod)

namespace Warp

variable {w : Warp T} {env : Env} {k : Key} {reg : Registration}
  {write : CacheWrite T} {d : Duration}

theorem extends_fillWrite (data : T) {ttl : Duration} (hgrants : env.Grants k reg ttl) :
    reg.Extends k (fillWrite env k data ttl reg).ttl :=
  ⟨env, ttl, hgrants, rfl⟩

theorem extends_effectiveTTL (env : Env) (k : Key) (reg : Registration) :
    reg.Extends k (env.effectiveTTL k reg) :=
  ⟨env, env.ttl k reg, .inl rfl, rfl⟩

section

variable (hreg : w.regs k = some reg)
include hreg

theorem ttl_setWrite {value : T} (hwrite : w.setWrite env k value = some write) :
    write.ttl = env.effectiveTTL k reg := by
  rw [setWrite, hreg] at hwrite
  dsimp only at hwrite
  split at hwrite
  · cases hwrite
  · split at hwrite
    · cases hwrite
    · cases hwrite
      rfl

theorem extends_getWrite (hwrite : w.getWrite env k = some write) : reg.Extends k write.ttl := by
  rw [getWrite, hreg] at hwrite
  dsimp only at hwrite
  split at hwrite
  · rw [hitWrite] at hwrite
    split at hwrite
    · cases hwrite
    split at hwrite
    · rw [staleWrite] at hwrite
      split at hwrite
      · cases hwrite
      split at hwrite
      · cases hwrite
        exact extends_fillWrite _ (env.grants_current k reg)
      · cases hwrite
    · split at hwrite
      · rename_i hslides
        cases hwrite
        exact ⟨env, _, .inr (.inr ⟨hslides, _, rfl⟩), rfl⟩
      · cases hwrite
  · rw [missWrite] at hwrite
    split at hwrite
    · cases hwrite
    split at hwrite
    · cases hwrite
      exact extends_fillWrite _ (.inl rfl)
    · cases hwrite

theorem extends_keyOp (op : KeyOp T) (hd : (op.write w env k).map CacheWrite.ttl = some d) :
    reg.Extends k d := by
  obtain ⟨write, hwrite, rfl⟩ := Option.map_eq_some_iff.mp hd
  cases op with
  | get => exact extends_getWrite hreg hwrite
  | set value =>
    rw [ttl_setWrite hreg hwrite]
    exact extends_effectiveTTL env k reg
  | invalidate => cases hwrite

theorem extends_getOrLoad {loader : Loader T}
    (hd : w.getOrLoadTTL env k reg loader = some d) : reg.Extends k d := by
  rw [getOrLoadTTL] at hd
  split at hd
  · cases hd
  · unfold loadHitTTL at hd
    dsimp only at hd
    split at hd
    · split at hd
      · cases hd
      split at hd
      · cases hd
      · cases hd
        exact ⟨env, _, env.grants_current k reg, rfl⟩
    · split at hd
      · rename_i hslides
        cases hd
        exact ⟨env, _, .inr (.inr ⟨hslides, _, rfl⟩), rfl⟩
      · cases hd
  · rw [loadMissTTL] at hd
    split at hd
    · obtain ⟨write, hwrite, rfl⟩ := Option.map_eq_some_iff.mp hd
      -- the `Set` reads the registration that has just been touched
      rw [ttl_setWrite (regs_touch_self w k hreg _ _) hwrite]
      exact extends_effectiveTTL loader.write k reg
    · cases hd

theorem extends_warm (hd : w.warmTTL env k = some d) : reg.Extends k d := by
  rw [warmTTL, hreg] at hd
  split at hd
  · rename_i heq _
    cases heq
    cases hd
    exact extends_effectiveTTL env k reg
  · cases hd

end

theorem taskTTL_eq (fetched : Option T) (task : Task) : w.taskTTL env k fetched task =
      (task.capturedTTL k).bind fun currentTTL => w.fetchedTTL env k currentTTL fetched := by
  cases task with
  | publish k' => rfl
  | softFill k' currentTTL | eagerRefresh k' currentTTL =>
    rw [taskTTL, Task.capturedTTL]
    split
    · rfl
    · rfl

theorem of_fetchedTTL (hreg : w.regs k = some reg) {currentTTL : Duration}
    {fetched : Option T} (hd : w.fetchedTTL env k currentTTL fetched = some d) :
    d = wrap64 ((if reg.hasStrategy then env.strategyTTL k else currentTTL) +
      reg.ttlOpts.failSafeGracePeriod) := by
  unfold fetchedTTL at hd
  rw [hreg] at hd
  split at hd
  · rename_i heq
    cases heq
    exact (Option.some.inj hd).symm
  · cases hd

end Warp

theorem Access.passedTTL_cases {k : Key} {w : Warp T} {env : Env}
    {reg : Registration} (hreg : w.regs k = some reg) {access : Access T}
    {d : Duration} (hd : access.passedTTL k w env = some d) :
    reg.Extends k d ∨ (∃ val keys nodup, access = .scan val keys nodup ∧
        val.Heals w env keys k ∧ d = env.ttl k reg) ∨
      ∃ task fetched currentTTL, access = .task task fetched ∧
        task.capturedTTL k = some currentTTL ∧
        d = wrap64 ((if reg.hasStrategy then env.strategyTTL k
          else currentTTL) + reg.ttlOpts.failSafeGracePeriod) := by
  cases access with
  | key k' op =>
    obtain ⟨rfl, hd⟩ := ite_none_right_eq_some.mp hd
    exact .inl (Warp.extends_keyOp hreg op hd)
  | getOrSet k' loader =>
    obtain ⟨rfl, hd⟩ := ite_none_right_eq_some.mp hd
    rw [hreg, getD_some] at hd
    refine .inl (Warp.extends_getOrLoad ?_ hd)
    rw [Warp.regs_ensureRegistered, hreg, getD_some]
  | warmup keys nodup =>
    obtain ⟨_, hd⟩ := ite_none_right_eq_some.mp hd
    exact .inl (Warp.extends_warm hreg hd)
  | commit txn order =>
    obtain ⟨_, hd⟩ := ite_none_right_eq_some.mp hd
    rw [hreg, map_some] at hd
    cases hd
    exact .inl (Warp.extends_effectiveTTL env k reg)
  | scan val keys nodup =>
    obtain ⟨hheals, hd⟩ := ite_none_right_eq_some.mp hd
    rw [Warp.healTTL, hreg] at hd
    exact .inr (.inl ⟨val, keys, nodup, rfl, hheals, (Option.some.inj hd).symm⟩)
  | task started fetched =>
    rw [Access.passedTTL, Warp.taskTTL_eq] at hd
    obtain ⟨currentTTL, hcaptured, hd⟩ := Option.bind_eq_some_iff.mp hd
    exact .inr (.inr ⟨started, fetched, currentTTL, rfl, hcaptured, Warp.of_fetchedTTL hreg hd⟩)

/-! ## What every access keeps about a registration -/

/-- A property of the registration of `k` and one of captured TTLs that survive
every TTL which an operation or a goroutine records. -/
structure Upkeep (k : Key) (I : Registration → Prop) (C : Duration → Prop) : Prop where
  current : ∀ reg, I reg → C reg.currentTTL
  granted : ∀ (env : Env) reg₀ reg ttl now, I reg₀ → I reg →
    env.Grants k reg₀ ttl → I (reg.touch ttl now)
  captured : ∀ (env : Env) reg ttl now, I reg → C ttl →
    I (reg.touch (if reg.hasStrategy then env.strategyTTL k else ttl) now)

/-- The registration of `k` has the one property, and what goroutines have
captured for `k` the other. -/
structure Warp.Kept (k : Key) (I : Registration → Prop) (C : Duration → Prop)
    (w : Warp T) : Prop where
  registered : ∃ reg, w.regs k = some reg ∧ I reg
  captured : ∀ task ∈ w.spawned, ∀ ttl, task.capturedTTL k = some ttl → C ttl

namespace Warp.Kept

variable {k : Key} {I : Registration → Prop} {C : Duration → Prop} {w w' : Warp T} {env : Env}

theorem congr (h : w.Kept k I C) (hregs : w'.regs k = w.regs k)
    (hspawned : w'.spawned = w.spawned) : w'.Kept k I C :=
  ⟨hregs ▸ h.registered, hspawned ▸ h.captured⟩

theorem spawned_cacheSet (w : Warp T) (k' : Key) (v : Value T)
    (ttl : Duration) : (w.cacheSet env k' v ttl).spawned = w.spawned := by
  rw [Warp.cacheSet]
  split
  · rfl
  · rfl

section

variable (h : w.Kept k I C)
include h

theorem cacheSet (k' : Key) (v : Value T) (ttl : Duration) : (w.cacheSet env k' v ttl).Kept k I C :=
  h.congr (by rw [regs_cacheSet]) (spawned_cacheSet w k' v ttl)

theorem cacheInvalidate (k' : Key) : (w.cacheInvalidate env k').Kept k I C := by
  refine h.congr (by rw [regs_cacheInvalidate]) ?_
  rw [Warp.cacheInvalidate]
  split
  · rfl
  · rfl

theorem touch {k' : Key} {ttl : Duration} {now : Instant}
    (htouch : k' = k → ∀ reg, w.regs k = some reg → I reg → I (reg.touch ttl now)) :
    (w.touch k' ttl now).Kept k I C := by
  by_cases hk : k' = k
  · subst hk
    obtain ⟨reg, hreg, hI⟩ := h.registered
    exact ⟨⟨reg.touch ttl now, regs_touch_self w k' hreg ttl now,
      htouch rfl reg hreg hI⟩, h.captured⟩
  · exact h.congr (Function.update_of_ne (.symm hk) _ _) rfl

theorem ensureRegistered (k' : Key) : (w.ensureRegistered k').Kept k I C := by
  rw [Warp.ensureRegistered]
  split
  · exact h
  · rename_i hnone
    obtain ⟨reg, hreg, _⟩ := h.registered
    have hk : k ≠ k' := by
      rintro rfl
      rw [hreg] at hnone
      cases hnone
    exact h.congr (Function.update_of_ne hk _ _) rfl

theorem takeTask (task : Task) : (w.takeTask task).Kept k I C :=
  ⟨h.registered, fun task' hmem => h.captured task' (List.mem_of_mem_erase hmem)⟩

theorem of_regs {reg : Registration} (hreg : w.regs k = some reg) : I reg := by
  obtain ⟨reg', hreg', hI⟩ := h.registered
  obtain rfl := mem_unique hreg hreg'
  exact hI

end

theorem capturedTTL_of_starts {k' : Key} {reg : Registration} {task : Task}
    (hstarts : reg.Starts k' task) {ttl : Duration}
    (httl : task.capturedTTL k = some ttl) : k' = k ∧ reg.currentTTL = ttl := by
  rcases hstarts with rfl | rfl | rfl
  · cases httl
  · obtain ⟨hk, heq⟩ := ite_none_right_eq_some.mp httl
    exact ⟨hk, Option.some.inj heq⟩
  · obtain ⟨hk, heq⟩ := ite_none_right_eq_some.mp httl
    exact ⟨hk, Option.some.inj heq⟩

theorem stable (hup : Upkeep k I C) (env : Env) (k' : Key) :
    Stable env k' (Kept (T := T) k I C) where
  cacheSet _ v ttl h := h.cacheSet k' v ttl
  cacheInvalidate _ h := h.cacheInvalidate k'
  storeSet _ _ h := h.congr rfl rfl
  touch _ _ reg ttl now h h₀ hreg hgrants := by
    refine h.touch ?_
    rintro rfl reg' _ hI
    exact hup.granted env reg reg' ttl now (h₀.of_regs hreg) hI hgrants
  spawn _ _ reg task h h₀ hreg hstarts := by
    refine ⟨h.registered, ?_⟩
    intro task' hmem ttl httl
    rcases List.mem_append.mp hmem with hmem | hmem
    · exact h.captured task' hmem ttl httl
    · obtain rfl := List.mem_singleton.mp hmem
      obtain ⟨rfl, rfl⟩ := capturedTTL_of_starts hstarts httl
      exact hup.current reg (h₀.of_regs hreg)

theorem runTask (hup : Upkeep k I C) (h : w.Kept k I C) (fetched : Option T)
    {task : Task} (hcaptured : ∀ ttl, task.capturedTTL k = some ttl → C ttl) :
    (w.runTask env fetched task).Kept k I C := by
  cases task with
  | publish k' => exact h
  | softFill k' currentTTL =>
    unfold Warp.runTask
    dsimp only
    split
    · exact h.cacheSet k' _ _
    · exact h
  | eagerRefresh k' currentTTL =>
    unfold Warp.runTask
    dsimp only
    split
    · rename_i reg data hreg
      refine .cacheSet (h.touch ?_) k' _ _
      rintro rfl reg' hreg' hI
      obtain rfl := mem_unique hreg hreg'
      exact hup.captured env reg currentTTL _ hI (hcaptured currentTTL (if_pos rfl))
    · exact h

theorem commitStable (h : w.Kept k I C) {txn : Txn T}
    (hcommit : k ∈ txn.sets → ∀ reg₀ reg now, I reg₀ → I reg →
      I (reg.touch (env.effectiveTTL k reg₀) now)) :
    CommitStable w env txn (Kept k I C) where
  cacheSet _ k' v _ _ _ h' := h'.cacheSet k' v _
  cacheInvalidate _ k' _ h' := h'.cacheInvalidate k'
  store _ _ _ h' := h'.congr rfl rfl
  touch _ k' reg₀ now hmem hreg h' := by
    refine h'.touch ?_
    rintro rfl reg _ hI
    exact hcommit hmem reg₀ reg now (h.of_regs hreg) hI

end Warp.Kept

theorem Access.kept_step [DecidableEq T] {k : Key} {I : Registration → Prop}
    {C : Duration → Prop} (hup : Upkeep k I C) {w w' : Warp T} {env : Env}
    {access : Access T} (h : w.Kept k I C)
    (hcommit : ∀ txn order, access = .commit txn order → k ∈ txn.sets →
      ∀ reg₀ reg now, I reg₀ → I reg → I (reg.touch (env.effectiveTTL k reg₀) now))
    (hstep : Access.step w (env, access) = some w') : w'.Kept k I C := by
  have hstable := Warp.Kept.stable (T := T) hup
  cases access with
  | key k' op =>
    cases hstep
    exact (hstable env k').keyOp h op
  | getOrSet k' loader =>
    cases hstep
    exact (hstable env k').getOrSet (h.ensureRegistered k') (hstable _ k')
  | warmup keys nodup =>
    cases hstep
    exact Stable.warmup (fun k' _ => hstable env k') h
  | commit txn order =>
    cases hstep
    exact (h.commitStable (hcommit txn order rfl)).commit h order
  | scan val keys nodup =>
    cases hstep
    exact Stable.scan (fun k' _ => hstable env k') h val
  | task started fetched =>
    rw [Access.step] at hstep
    split at hstep
    · rename_i hmem
      cases hstep
      exact (h.takeTask started).runTask hup fetched (h.captured started hmem)
    · cases hstep

theorem Access.mem_spawned_of_step [DecidableEq T] {w w' : Warp T} {env : Env}
    {task : Task} {fetched : Option T} (hstep : Access.step w (env, .task task fetched) = some w') :
    task ∈ w.spawned :=
  (ite_none_right_eq_some.mp hstep).1

end GoWarp.Core
