import GoWarp.Core.CommitEffects
import GoWarp.Core.KeyOps
import GoWarp.Support.Loop
import GoWarp.Support.Transition

/-!
# The other ways into the cache

`GetOrSet` fills the cache from a loader, `Warmup` from the store, and a
validator replaces cached values that differ from the stored ones.  A `Get` or
a `GetOrSet` may leave a goroutine behind that fills the cache later.
Together with the operations on one key and the transactions these are the
accesses to a Warp, and a machine runs them in any order.

An access leaves everything about a key that it is not on as it was.
-/

namespace GoWarp.Core

open Support Support.Program

variable {T : Type}

namespace Warp

/-- The registration `GetOrSet` makes for a key that has none. -/
def autoRegistration : Registration :=
  Registration.new .strongLocal (5 * 60 * 10 ^ 9) TTLOptions.zero

def ensureRegistered (w : Warp T) (k : Key) : Warp T :=
  match w.regs k with
  | some _ => w
  | none => { w with regs := Function.update w.regs k (some autoRegistration) }

/-- The answer of the loader, and the worlds of the second cache lookup and of
the `Set` inside `GetOrSet`. -/
structure Loader (T : Type) where
  result : Except Err T
  recheck : Env
  write : Env

/-- `GetOrSet` on a stale value. -/
def loadStale (w : Warp T) (env : Env) (k : Key) (reg : Registration)
    (v : Value T) (loaded : Except Err T) : Reply T × Warp T :=
  if 0 < reg.ttlOpts.softTimeout ∧ env.timedOut then
    (Reply.found v.data, w.spawn (.softFill k reg.currentTTL))
  else
    match loaded with
    | .error _ => (Reply.found v.data, w)
    | .ok data =>
      let ttl := if reg.hasStrategy then env.strategyTTL k else reg.currentTTL
      (Reply.found data, w.fill env k data ttl reg)

/-- `GetOrSet` on a hit. -/
def loadHit (w : Warp T) (env : Env) (k : Key) (reg : Registration)
    (v : Value T) (loaded : Except Err T) : Reply T × Warp T :=
  let now := env.clock (.operation k)
  if isStale reg v now then w.loadStale env k reg v loaded
  else (Reply.found v.data, w.slide env k reg v now)

/-- `GetOrSet` on a miss: look again, load, and write the value with `Set`,
whose error is not returned. -/
def loadMiss (w : Warp T) (env : Env) (k : Key) (reg : Registration)
    (loader : Loader T) : Reply T × Warp T :=
  match w.cacheGet loader.recheck k with
  | .error e => (Reply.failed e, w)
  | .ok (some v) => (Reply.found v.data, w)
  | .ok none =>
    match loader.result with
    | .error e => (Reply.failed e, w)
    | .ok data =>
      (Reply.found data, (exec (set loader.write k data)
        (w.touch k (env.ttl k reg) (env.clock (.fetch k)))).2)

/-- `GetOrSet` of a registered key. -/
def getOrLoad (w : Warp T) (env : Env) (k : Key) (reg : Registration)
    (loader : Loader T) : Reply T × Warp T :=
  match w.cacheGet env k with
  | .error e => (Reply.failed e, w)
  | .ok (some v) => w.loadHit env k reg v loader.result
  | .ok none => w.loadMiss env k reg loader

def getOrSet (w : Warp T) (env : Env) (k : Key) (loader : Loader T) : Reply T × Warp T :=
  (w.ensureRegistered k).getOrLoad env k ((w.regs k).getD autoRegistration) loader

/-! ## Warmup -/

/-- `Warmup` at one key. -/
def warm (env : Env) (w : Warp T) (k : Key) : Warp T :=
  match w.regs k, w.storeGet env k with
  | some reg, .ok (some data) => w.fill env k data (env.ttl k reg) reg
  | _, _ => w

/-- `Warp.Warmup`, over the keys whose answers arrive, in that order. -/
def warmup (w : Warp T) (env : Env) (keys : List Key) : Warp T :=
  if w.storeKind = .absent then w else keys.foldl (warm env) w

/-- `validatorCache.Set`. -/
def heal (w : Warp T) (env : Env) (k : Key) (data : T) : Warp T :=
  let now := env.clock (.operation k)
  match w.regs k with
  | none => w.cacheSet env k (Value.written data now) 0
  | some reg =>
    (w.touch k (env.ttl k reg) now).cacheSet env k (Value.written data now) (env.ttl k reg)

/-! ## Goroutines -/

/-- What a goroutine left behind by an operation does when its read is
answered by `fetched`. -/
def runTask (w : Warp T) (env : Env) (fetched : Option T) : Task → Warp T
  | .publish _ => w
  | .softFill k currentTTL =>
    match w.regs k, fetched with
    | some reg, some data =>
      let ttl := if reg.hasStrategy then env.strategyTTL k else currentTTL
      w.cacheSet env k (Value.written data (env.clock (.fetch k)))
        (wrap64 (ttl + reg.ttlOpts.failSafeGracePeriod))
    | _, _ => w
  | .eagerRefresh k currentTTL =>
    match w.regs k, fetched with
    | some reg, some data =>
      let ttl := if reg.hasStrategy then env.strategyTTL k else currentTTL
      w.fill env k data ttl reg
    | _, _ => w

/-- A goroutine that has been started runs, once. -/
def takeTask (w : Warp T) (task : Task) : Warp T := { w with spawned := w.spawned.erase task }

end Warp

/-! ## The validator -/

/-- `validator.Mode`. -/
inductive ValidatorMode where
  | noop
  | alert
  | autoHeal
deriving DecidableEq

/-- `Validator`.  The digester returns `none` when it fails. -/
structure Validator (T : Type) where
  mode : ValidatorMode
  digest : T → Option String
  mismatches : ℕ

namespace Validator

/-- The stored value, if its digest differs from the one of the cached
value. -/
def mismatch (val : Validator T) (w : Warp T) (env : Env) (k : Key) :
    Option T :=
  match w.cacheGet env k, w.storeGet env k with
  | .ok (some cached), .ok (some stored) =>
    match val.digest cached.data, val.digest stored with
    | some a, some b => if a = b then none else some stored
    | _, _ => none
  | _, _ => none

/-- `Validator.scan` at one key. -/
def scanKey (env : Env) (s : Validator T × Warp T) (k : Key) : Validator T × Warp T :=
  match s.1.mismatch s.2 env k with
  | none => s
  | some stored =>
    ({ s.1 with mismatches := s.1.mismatches + 1 },
      if s.1.mode = .autoHeal then s.2.heal env k stored else s.2)

/-- `Validator.scan` over the keys the store lists; without a store the
validator does not run. -/
def scan (val : Validator T) (w : Warp T) (env : Env) (keys : List Key) : Validator T × Warp T :=
  if w.storeKind = .absent then (val, w) else keys.foldl (scanKey env) (val, w)

/-- The scan replaces the cached value of `k`. -/
def Heals (val : Validator T) (w : Warp T) (env : Env) (keys : List Key) (k : Key) : Prop :=
  w.storeKind ≠ .absent ∧ val.mode = .autoHeal ∧ k ∈ keys ∧ (val.mismatch w env k).isSome

instance (val : Validator T) (w : Warp T) (env : Env) (keys : List Key)
    (k : Key) : Decidable (val.Heals w env keys k) :=
  inferInstanceAs (Decidable (_ ∧ _))

end Validator

/-! ## Accesses -/

inductive Access (T : Type) where
  | key (k : Key) (op : KeyOp T)
  | getOrSet (k : Key) (loader : Warp.Loader T)
  | warmup (keys : List Key) (nodup : keys.Nodup)
  | commit (txn : Txn T) (order : txn.Order)
  | scan (val : Validator T) (keys : List Key) (nodup : keys.Nodup)
  | task (started : Task) (fetched : Option T)

def Task.key : Task → Key
  | .publish k => k
  | .softFill k _ => k
  | .eagerRefresh k _ => k

namespace Access

/-- One access.  A goroutine runs if it has been started and not yet run. -/
def step [DecidableEq T] : Machine (Warp T) (Env × Access T) :=
  fun w (env, access) =>
    match access with
    | .key k op => some (op.run w env k).2
    | .getOrSet k loader => some (w.getOrSet env k loader).2
    | .warmup keys _ => some (w.warmup env keys)
    | .commit txn order => some (txn.commit w env order).2
    | .scan val keys _ => some (val.scan w env keys).2
    | .task started fetched =>
      if started ∈ w.spawned then
        some ((w.takeTask started).runTask env fetched started)
      else
        none

/-- The access is an operation on `k`. -/
def On (k : Key) : Access T → Prop
  | .key k' _ => k' = k
  | .getOrSet k' _ => k' = k
  | .warmup keys _ => k ∈ keys
  | .commit txn _ => txn.HasKey k
  | .scan _ keys _ => k ∈ keys
  | .task started _ => started.key = k

end Access

/-! ## Properties that survive an access -/

namespace Stable

variable {env : Env} {k : Key} {P : Warp T → Prop} {w : Warp T} {reg : Registration}

theorem loadHit (h : Stable env k P) (hw : P w) (hreg : w.regs k = some reg)
    (v : Value T) (loaded : Except Err T) :
    P (w.loadHit env k reg v loaded).2 := by
  rw [Warp.loadHit]
  split
  · unfold Warp.loadStale
    split
    · exact h.spawn w w reg _ hw hw hreg (.inr (.inl rfl))
    · split
      · exact hw
      · exact h.fill hw hreg _ (Env.grants_current env k reg)
  · exact h.slide hw hreg _ _

theorem loadMiss (h : Stable env k P) (hw : P w) (hreg : w.regs k = some reg)
    {loader : Warp.Loader T} (hset : Stable loader.write k P) :
    P (w.loadMiss env k reg loader).2 := by
  rw [Warp.loadMiss]
  split
  · exact hw
  · exact hw
  · split
    · exact hw
    · exact hset.set _ _ (h.touch w w reg _ _ hw hw hreg (.inl rfl))

end Stable

theorem Warp.regs_ensureRegistered (w : Warp T) (k : Key) : (w.ensureRegistered k).regs k =
      some ((w.regs k).getD Warp.autoRegistration) := by
  rw [Warp.ensureRegistered]
  split
  · rename_i reg hreg
    rw [hreg, Option.getD_some]
  · rename_i hreg
    rw [hreg]
    exact Function.update_self _ _ _

namespace Stable

variable {env : Env} {k : Key} {P : Warp T → Prop} {w : Warp T}

section

variable (h : Stable env k P)
include h

theorem getOrSet (hw : P (w.ensureRegistered k))
    {loader : Warp.Loader T} (hset : Stable loader.write k P) :
    P (w.getOrSet env k loader).2 := by
  have hreg := w.regs_ensureRegistered k
  rw [Warp.getOrSet, Warp.getOrLoad]
  split
  · exact hw
  · exact h.loadHit hw hreg _ _
  · exact h.loadMiss hw hreg hset

theorem warm (hw : P w) : P (w.warm env k) := by
  rw [Warp.warm]
  split
  · rename_i reg data hreg _
    exact h.fill hw hreg _ (.inl rfl)
  · exact hw

theorem heal (hw : P w) (data : T) : P (w.heal env k data) := by
  rw [Warp.heal]
  split
  · exact h.cacheSet _ _ _ hw
  · rename_i reg hreg
    exact h.cacheSet _ _ _ (h.touch w w reg _ _ hw hw hreg (.inl rfl))

theorem scanKey {s : Validator T × Warp T} (hs : P s.2) : P (Validator.scanKey env s k).2 := by
  rw [Validator.scanKey]
  split
  · exact hs
  · dsimp only
    split
    · exact h.heal hs _
    · exact hs

end

theorem warmup {keys : List Key} (h : ∀ k ∈ keys, Stable env k P) (hw : P w) :
    P (w.warmup env keys) := by
  rw [Warp.warmup]
  split
  · exact hw
  · exact List.foldlRecOn keys (.warm env) hw fun w hw k hk => (h k hk).warm hw

theorem scan {keys : List Key} (h : ∀ k ∈ keys, Stable env k P) (hw : P w)
    (val : Validator T) : P (val.scan w env keys).2 := by
  rw [Validator.scan]
  split
  · exact hw
  · exact List.foldlRecOn (motive := fun s : Validator T × Warp T => P s.2)
      keys (Validator.scanKey env) hw fun s hs k hk => (h k hk).scanKey hs

end Stable

/-! ## Accesses to other keys -/

/-- The two states agree about `k`, and have the same configuration. -/
structure Warp.SameAt (k : Key) (w w' : Warp T) : Prop where
  cache : w'.cache k = w.cache k
  store : w'.store k = w.store k
  regs : w'.regs k = w.regs k
  storeKind : w'.storeKind = w.storeKind
  merges : w'.merges = w.merges
  resilient : w'.resilient = w.resilient
  traceEnabled : w'.traceEnabled = w.traceEnabled
  hasLatencyHist : w'.hasLatencyHist = w.hasLatencyHist

namespace Warp.SameAt

variable {k : Key} {w w' w'' : Warp T}

theorem refl (k : Key) (w : Warp T) : SameAt k w w := ⟨rfl, rfl, rfl, rfl, rfl, rfl, rfl, rfl⟩

section

variable (h : SameAt k w w')
include h

theorem trans (h' : SameAt k w' w'') : SameAt k w w'' where
  cache := h'.cache.trans h.cache
  store := h'.store.trans h.store
  regs := h'.regs.trans h.regs
  storeKind := h'.storeKind.trans h.storeKind
  merges := h'.merges.trans h.merges
  resilient := h'.resilient.trans h.resilient
  traceEnabled := h'.traceEnabled.trans h.traceEnabled
  hasLatencyHist := h'.hasLatencyHist.trans h.hasLatencyHist

variable {k' : Key}

theorem cacheSet (env : Env) (hk : k ≠ k')
    (v : Value T) (ttl : Duration) : SameAt k w (w'.cacheSet env k' v ttl) := by
  rw [Warp.cacheSet]
  split
  · exact h
  · exact { h with cache := (Function.update_of_ne hk _ _).trans h.cache }

theorem cacheInvalidate (env : Env) (hk : k ≠ k') : SameAt k w (w'.cacheInvalidate env k') := by
  rw [Warp.cacheInvalidate]
  split
  · exact h
  · exact { h with cache := (Function.update_of_ne hk _ _).trans h.cache }

theorem touch (hk : k ≠ k') (ttl : Duration) (now : Instant) : SameAt k w (w'.touch k' ttl now) :=
  { h with regs := (Function.update_of_ne hk _ _).trans h.regs }

theorem ensureRegistered (hk : k ≠ k') : SameAt k w (w'.ensureRegistered k') := by
  rw [Warp.ensureRegistered]
  split
  · exact h
  · exact { h with regs := (Function.update_of_ne hk _ _).trans h.regs }

end

theorem stable (w : Warp T) (env : Env) {k' : Key} (hk : k ≠ k') : Stable env k' (SameAt k w) where
  cacheSet _ v ttl h := h.cacheSet env hk v ttl
  cacheInvalidate _ h := h.cacheInvalidate env hk
  storeSet _ _ h := { h with store := (Function.update_of_ne hk _ _).trans h.store }
  touch _ _ _ ttl now h _ _ _ := h.touch hk ttl now
  spawn _ _ _ _ h _ _ _ := { h with }

theorem commitStable (w₀ w : Warp T) (env : Env) {txn : Txn T}
    (hk : ¬txn.HasKey k) : CommitStable w env txn (SameAt k w₀) where
  cacheSet _ _ v _ hmem _ h := h.cacheSet env (fun heq => hk (.inl (heq ▸ hmem))) v _
  cacheInvalidate _ _ hmem h := h.cacheInvalidate env fun heq => hk (.inr (heq ▸ hmem))
  store _ _ hstore h := { h with store := (hstore k hk).trans h.store }
  touch _ _ _ now hmem _ h := h.touch (fun heq => hk (.inl (heq ▸ hmem))) _ now

theorem runTask (h : SameAt k w w') (env : Env) (fetched : Option T)
    {task : Task} (hk : k ≠ task.key) :
    SameAt k w (w'.runTask env fetched task) := by
  rw [Warp.runTask.eq_def]
  split
  · exact h
  · split
    · exact h.cacheSet env hk _ _
    · exact h
  · split
    · exact (h.touch hk _ _).cacheSet env hk _ _
    · exact h

theorem takeTask (h : SameAt k w w') (task : Task) : SameAt k w (w'.takeTask task) := { h with }

end Warp.SameAt

theorem Access.sameAt_step [DecidableEq T] {k : Key} {w w' : Warp T}
    {env : Env} {access : Access T} (hk : ¬access.On k)
    (hstep : Access.step w (env, access) = some w') : w.SameAt k w' := by
  have hstable : ∀ env' k', k' ≠ k → Stable env' k' (w.SameAt k) :=
    fun env' k' hne => Warp.SameAt.stable w env' (.symm hne)
  have hself := Warp.SameAt.refl k w
  have hkeys : ∀ keys : List Key, k ∉ keys → ∀ k' ∈ keys, Stable env k' (w.SameAt k) :=
    fun keys hnot k' hmem => hstable env k' fun heq => hnot (heq ▸ hmem)
  cases access with
  | key k' op =>
    cases hstep
    exact (hstable env k' hk).keyOp hself op
  | getOrSet k' loader =>
    cases hstep
    exact (hstable env k' hk).getOrSet (hself.ensureRegistered (.symm hk)) (hstable _ k' hk)
  | warmup keys nodup =>
    cases hstep
    exact Stable.warmup (hkeys keys hk) hself
  | commit txn order =>
    cases hstep
    exact (Warp.SameAt.commitStable w w env hk).commit hself order
  | scan val keys nodup =>
    cases hstep
    exact Stable.scan (hkeys keys hk) hself val
  | task started fetched =>
    rw [Access.step] at hstep
    split at hstep
    · cases hstep
      exact (hself.takeTask started).runTask env fetched (.symm hk)
    · cases hstep

end GoWarp.Core
