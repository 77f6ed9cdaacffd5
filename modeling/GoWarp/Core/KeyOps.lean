import GoWarp.Core.WriteThrough

/-!
# What an operation on one key does

`Get`, `Set` and `Invalidate` reach the state of a Warp through a handful of
effects: writes and invalidations of the cache, writes of the store, updates
of the registration, and goroutines.  `Stable` says that a property survives
the effects an operation on a key can have, and with which TTLs; it then
survives the operations.  The second half of the module lists the calls of
`cache.Set` that the operations make.
-/

namespace GoWarp.Core

open Support Support.Program

variable {T : Type}

namespace Warp

variable (w : Warp T) (env : Env) (k : Key)

@[simp] theorem regs_cacheSet (v : Value T) (ttl : Duration) :
    (w.cacheSet env k v ttl).regs = w.regs := by
  rw [cacheSet]
  split
  · rfl
  · rfl

@[simp] theorem regs_cacheInvalidate : (w.cacheInvalidate env k).regs = w.regs := by
  rw [cacheInvalidate]
  split
  · rfl
  · rfl

theorem regs_touch_self {reg : Registration} (hreg : w.regs k = some reg)
    (ttl : Duration) (now : Instant) :
    (w.touch k ttl now).regs k = some (reg.touch ttl now) := by
  simp [touch, hreg]

theorem regs_eager (v : Value T) (now : Instant) : (w.eager k v now).regs = w.regs := by
  rw [eager]
  split
  · rfl
  · split
    · rfl
    · rfl

end Warp

/-! ## Properties that survive an operation -/

/-- The TTLs that an operation on `k` records in a registration: the one of a
write, the current one again, or the one a hit extends the value by. -/
def Env.Grants (env : Env) (k : Key) (reg : Registration) (ttl : Duration) :
    Prop :=
  ttl = env.ttl k reg ∨ (reg.hasStrategy = false ∧ ttl = reg.currentTTL) ∨
    ((reg.ttlOpts.sliding ∨ 0 < reg.ttlOpts.freqThreshold) ∧
      ∃ now, ttl = Warp.slidTTL reg (env.strategyTTL k) now)

theorem Env.grants_current (env : Env) (k : Key) (reg : Registration) : env.Grants k reg
      (if reg.hasStrategy then env.strategyTTL k else reg.currentTTL) := by
  by_cases hstrategy : reg.hasStrategy = true
  · left
    rw [if_pos hstrategy, Env.ttl, if_pos hstrategy]
  · rw [if_neg hstrategy]
    exact .inr (.inl ⟨Bool.not_eq_true _ ▸ hstrategy, rfl⟩)

/-- The goroutines that an operation on `k` starts. -/
def Registration.Starts (reg : Registration) (k : Key) (task : Task) : Prop :=
  task = .publish k ∨ task = .softFill k reg.currentTTL ∨ task = .eagerRefresh k reg.currentTTL

/-- A property that survives every effect of an operation on `k`.  The
registration an operation has read is one the property allows. -/
structure Stable (env : Env) (k : Key) (P : Warp T → Prop) : Prop where
  cacheSet : ∀ w v ttl, P w → P (w.cacheSet env k v ttl)
  cacheInvalidate : ∀ w, P w → P (w.cacheInvalidate env k)
  storeSet : ∀ w data, P w → P (w.storeSet k data)
  touch : ∀ w w₀ reg ttl now, P w → P w₀ → w₀.regs k = some reg →
    env.Grants k reg ttl → P (w.touch k ttl now)
  spawn : ∀ w w₀ reg task, P w → P w₀ → w₀.regs k = some reg → reg.Starts k task → P (w.spawn task)

theorem preserves_invalidate {env : Env} {k : Key} {P : Warp T → Prop}
    (hcache : ∀ w, P w → P (w.cacheInvalidate env k))
    (hspawn : ∀ w w₀ reg, P w → P w₀ → w₀.regs k = some reg → P (w.spawn (.publish k))) :
    Preserves P (Warp.invalidate env k) := by
  refine .get_bind fun w hw => ?_
  dsimp only
  split
  · exact .throw _
  · rename_i reg hreg
    have happly : Preserves P (perform (w.cacheFault env (.cacheInvalidate k))
        fun w : Warp T => w.cacheInvalidate env k) :=
      Preserves.perform _ hcache
    split
    · refine .bind happly fun _ => ?_
      split
      · exact .modify fun s hs => hspawn s w reg hs hw hreg
      · exact .pure ()
    · refine .bind (.failOn _) fun _ => ?_
      split
      · exact .bind (.failOn _) fun _ => happly
      · exact happly
    · exact happly

namespace Stable

variable {env : Env} {k : Key} {P : Warp T → Prop} {w : Warp T} {reg : Registration}

variable (h : Stable env k P)
include h

theorem applySet (hw : P w) (hreg : w.regs k = some reg)
    (v : Value T) : Preserves P (Warp.applySet env k reg v) := by
  have htouch : Preserves P (modify fun w : Warp T =>
      w.touch k (env.ttl k reg) (env.clock (.operation k)) : Program (Warp T) Err Unit) :=
    Preserves.modify fun s hs => h.touch s w reg _ _ hs hw hreg (.inl rfl)
  refine .get_bind fun s _ => ?_
  refine .bind (.perform _ fun s hs => h.cacheSet s _ _ hs) fun _ => ?_
  split
  · exact .bind (.perform _ fun s hs => h.storeSet s _ hs) fun _ => htouch
  · exact htouch

theorem set (value : T) : Preserves P (Warp.set env k value) := by
  refine .get_bind fun w hw => ?_
  dsimp only
  split
  · exact .throw _
  · rename_i reg hreg
    refine .bind (.ofExcept _) fun old => ?_
    have happly := h.applySet hw hreg
    split
    · refine .bind (happly _) fun _ => ?_
      split
      · exact .modify fun s hs => h.spawn s w reg _ hs hw hreg (.inl rfl)
      · exact .pure ()
    · refine .bind (.failOn _) fun _ => ?_
      split
      · exact .bind (.failOn _) fun _ => happly _
      · exact happly _
    · exact happly _

theorem invalidate : Preserves P (Warp.invalidate env k) :=
  preserves_invalidate h.cacheInvalidate fun s w reg hs hw hreg =>
    h.spawn s w reg _ hs hw hreg (.inl rfl)

theorem fill (hw : P w) (hreg : w.regs k = some reg)
    (data : T) {ttl : Duration} (httl : env.Grants k reg ttl) :
    P (w.fill env k data ttl reg) :=
  h.cacheSet _ _ _ (h.touch w w reg ttl _ hw hw hreg httl)

theorem getStale (hw : P w) (hreg : w.regs k = some reg)
    (v : Value T) : P (w.getStale env k reg v).2 := by
  rw [Warp.getStale]
  split
  · exact h.spawn w w reg _ hw hw hreg (.inr (.inl rfl))
  · split
    · exact hw
    · exact hw
    · exact hw
    · exact h.fill hw hreg _ (Env.grants_current env k reg)

theorem slide (hw : P w) (hreg : w.regs k = some reg)
    (v : Value T) (now : Instant) : P (w.slide env k reg v now) := by
  rw [Warp.slide]
  split
  · rename_i hslide
    refine h.cacheSet _ _ _ (h.touch w w reg _ now hw hw hreg ?_)
    exact .inr (.inr ⟨hslide, now, rfl⟩)
  · exact hw

theorem eager (hw : P w) (v : Value T) (now : Instant) : P (w.eager k v now) := by
  rw [Warp.eager]
  split
  · exact hw
  · rename_i reg hreg
    split
    · exact h.spawn w w reg _ hw hw hreg (.inr (.inr rfl))
    · exact hw

theorem get (hw : P w) : P (w.get env k).2 := by
  rw [Warp.get]
  split
  · exact hw
  · rename_i reg hreg
    split
    · rw [Warp.getHit]
      split
      · exact hw
      · dsimp only
        split
        · exact h.getStale hw hreg _
        · exact h.eager (h.slide hw hreg _ _) _ _
    · rw [Warp.getMiss]
      split
      · exact hw
      · split
        · exact hw
        · exact hw
        · exact h.fill hw hreg _ (.inl rfl)

end Stable

/-! ## Operations on one key -/

inductive KeyOp (T : Type) where
  | get
  | set (value : T)
  | invalidate

namespace KeyOp

def written (r : Except Err Unit × Warp T) : Warp.Reply T × Warp T :=
  match r with
  | (.ok _, w) => (⟨none, none⟩, w)
  | (.error e, w) => (⟨none, some e⟩, w)

/-- The reply of an operation, and the Warp it leaves. -/
def run (w : Warp T) (env : Env) (k : Key) : KeyOp T → Warp.Reply T × Warp T
  | .get => w.get env k
  | .set value => written (exec (Warp.set env k value) w)
  | .invalidate => written (exec (Warp.invalidate env k) w)

theorem written_snd (r : Except Err Unit × Warp T) : (written r).2 = r.2 := by
  rcases r with ⟨_ | _, w⟩ <;> rfl

end KeyOp

theorem Stable.keyOp {env : Env} {k : Key} {P : Warp T → Prop} {w : Warp T}
    (h : Stable env k P) (hw : P w) (op : KeyOp T) :
    P (op.run w env k).2 := by
  cases op with
  | get => exact h.get hw
  | set value =>
    rw [KeyOp.run, KeyOp.written_snd]
    exact h.set value w hw
  | invalidate =>
    rw [KeyOp.run, KeyOp.written_snd]
    exact h.invalidate w hw

/-! ## The calls of `cache.Set` -/

/-- What a call of `cache.Set` passes for a key. -/
structure CacheWrite (T : Type) where
  value : Value T
  ttl : Duration
deriving DecidableEq

namespace Warp

section Writes

variable (w : Warp T) (env : Env) (k : Key)

/-- The effect of a call of `cache.Set`, if there is one. -/
def issue : Option (CacheWrite T) → Warp T
  | none => w
  | some write => w.cacheSet env k write.value write.ttl

/-- A strong write that the bus does not let through. -/
def Blocked (reg : Registration) : Prop :=
  reg.mode = .strongDistributed ∧ (w.hasBus = false ∨
    (env.busHealthy ∧ env.fails (.publishAndAwait k reg.quorumSize) ≠ none))

instance (reg : Registration) : Decidable (w.Blocked env k reg) :=
  inferInstanceAs (Decidable (_ ∧ _))

/-- The call of `cache.Set` in a `Set`. -/
def setWrite (value : T) : Option (CacheWrite T) :=
  match w.regs k with
  | none => none
  | some reg =>
    match w.mergeBase env k with
    | .error _ => none
    | .ok old =>
      if w.Blocked env k reg then none
      else some ⟨w.newValue env k value old, env.effectiveTTL k reg⟩

/-- The call of `cache.Set` after a store read answered `data`. -/
def fillWrite (data : T) (ttl : Duration) (reg : Registration) :
    CacheWrite T :=
  ⟨Value.written data (env.clock (.fetch k)), wrap64 (ttl + reg.ttlOpts.failSafeGracePeriod)⟩

/-- The call of `cache.Set` in a hit on a stale value. -/
def staleWrite (reg : Registration) : Option (CacheWrite T) :=
  if 0 < reg.ttlOpts.softTimeout ∧ env.timedOut then
    none
  else
    match w.storeGet env k with
    | .ok (some data) =>
      let ttl := if reg.hasStrategy then env.strategyTTL k else reg.currentTTL
      some (fillWrite env k data ttl reg)
    | _ => none

/-- The call of `cache.Set` in a hit. -/
def hitWrite (reg : Registration) (v : Value T) : Option (CacheWrite T) :=
  let now := env.clock (.operation k)
  if w.plainHit reg then
    none
  else if isStale reg v now ∧ w.storeKind ≠ .absent then
    w.staleWrite env k reg
  else if reg.ttlOpts.sliding ∨ 0 < reg.ttlOpts.freqThreshold then
    some ⟨v, wrap64 (slidTTL reg (env.strategyTTL k) now + reg.ttlOpts.failSafeGracePeriod)⟩
  else
    none

/-- The call of `cache.Set` in a miss. -/
def missWrite (reg : Registration) : Option (CacheWrite T) :=
  if w.storeKind = .absent then
    none
  else
    match w.storeGet env k with
    | .ok (some data) => some (fillWrite env k data (env.ttl k reg) reg)
    | _ => none

/-- The call of `cache.Set` in a `Get`. -/
def getWrite : Option (CacheWrite T) :=
  match w.regs k with
  | none => none
  | some reg =>
    match w.cacheGet env k with
    | .ok (some v) => w.hitWrite env k reg v
    | _ => w.missWrite env k reg

end Writes

variable {w : Warp T} {env : Env} {k : Key} {reg : Registration}

theorem cache_cacheSet_congr {w' : Warp T} (h : w'.cache = w.cache) (v : Value T) (ttl : Duration) :
    (w'.cacheSet env k v ttl).cache = (w.cacheSet env k v ttl).cache := by
  rw [cacheSet, cacheSet]
  split
  · exact h
  · rw [h]

theorem cache_touch_cacheSet (ttl' : Duration) (now : Instant) (v : Value T) (ttl : Duration) :
    ((w.touch k ttl' now).cacheSet env k v ttl).cache = (w.cacheSet env k v ttl).cache :=
  cache_cacheSet_congr (by rfl) v ttl

theorem cache_fill (data : T) (ttl : Duration) : (w.fill env k data ttl reg).cache =
      (w.issue env k (some (fillWrite env k data ttl reg))).cache :=
  cache_touch_cacheSet _ _ _ _

theorem cache_getStale (v : Value T) : (w.getStale env k reg v).2.cache =
      (w.issue env k (w.staleWrite env k reg)).cache := by
  rw [getStale, staleWrite]
  split
  · rfl
  · rcases w.storeGet env k with e | _ | data
    · cases e <;> rfl
    · rfl
    · exact cache_fill data _

theorem cache_eager (v : Value T) (now : Instant) : (w.eager k v now).cache = w.cache := by
  rw [eager]
  split
  · rfl
  · split
    · rfl
    · rfl

theorem cache_getHit (v : Value T) : (w.getHit env k reg v).2.cache =
      (w.issue env k (w.hitWrite env k reg v)).cache := by
  rw [getHit, hitWrite]
  split
  · rfl
  · dsimp only
    split
    · exact cache_getStale v
    · rw [cache_eager, slide]
      split
      · exact cache_touch_cacheSet _ _ _ _
      · rfl

theorem cache_getMiss : (w.getMiss env k reg).2.cache =
      (w.issue env k (w.missWrite env k reg)).cache := by
  rw [getMiss, missWrite]
  split
  · rfl
  · rcases w.storeGet env k with e | _ | data
    · rfl
    · rfl
    · exact cache_fill data _

theorem cache_get (w : Warp T) (env : Env) (k : Key) :
    (w.get env k).2.cache = (w.issue env k (w.getWrite env k)).cache := by
  rw [get, getWrite]
  rcases w.regs k with _ | reg
  · rfl
  · dsimp only
    rcases w.cacheGet env k with e | _ | v
    · exact cache_getMiss
    · exact cache_getMiss
    · exact cache_getHit v

theorem cacheSet_of_cacheFault {e : Err} (h : w.cacheFault env (.cacheSet k) = some e) (v : Value T)
    (ttl : Duration) : w.cacheSet env k v ttl = w := by
  rw [cacheFault] at h
  split at h
  · cases h
  · rw [cacheSet, h]

theorem cache_applySet (v : Value T) : (exec (applySet env k reg v) w).2.cache =
      (w.cacheSet env k v (env.effectiveTTL k reg)).cache := by
  cases hfault : w.cacheFault env (.cacheSet k) with
  | some e =>
    rw [exec_applySet_of_cacheFault hfault, cacheSet_of_cacheFault hfault]
  | none =>
    have hrest : Preserves (fun w' : Warp T => w'.cache =
        (w.cacheSet env k v (env.effectiveTTL k reg)).cache)
        (do
          if w.storeKind ≠ .absent then
            perform (env.fails (.storeSet k)) fun w => w.storeSet k v.data
          modify fun w => w.touch k (env.ttl k reg) (env.clock (.operation k)) :
          Program (Warp T) Err Unit) := by
      split
      · exact .bind (.perform _ fun _ h => h) fun _ => Preserves.modify fun _ h => h
      · exact .modify fun _ h => h
    rw [applySet, exec_bind_ok (exec_get w), hfault, exec_bind_ok (exec_perform_none _ w)]
    exact hrest _ rfl

theorem cache_set (w : Warp T) (env : Env) (k : Key) (value : T) :
    (exec (set env k value) w).2.cache = (w.issue env k (w.setWrite env k value)).cache := by
  rw [set, exec_bind_ok (exec_get w), setWrite]
  rcases w.regs k with _ | reg
  · rfl
  dsimp only
  rcases hbase : w.mergeBase env k with e | old
  · rfl
  rw [exec_bind_ok (exec_ofExcept _ w)]
  have happly : (exec (applySet env k reg (w.newValue env k value old)) w).2.cache =
      (w.cacheSet env k (w.newValue env k value old)
        (env.effectiveTTL k reg)).cache := cache_applySet _
  have hfree : reg.mode ≠ .strongDistributed → ¬w.Blocked env k reg :=
    fun hmode hblocked => hmode hblocked.1
  dsimp only
  cases hmode : reg.mode with
  | eventualDistributed =>
    rw [if_neg (hfree (by rw [hmode]; decide))]
    refine Preserves.snd_bind (P := fun w' : Warp T => w'.cache = _) happly fun _ => ?_
    split
    · exact .modify fun _ h => h
    · exact .pure ()
  | strongDistributed =>
    by_cases hblocked : w.Blocked env k reg
    · rw [if_pos hblocked]
      rcases hblocked.2 with hbus | ⟨hhealthy, hfails⟩
      · rw [hbus]
        rfl
      · obtain ⟨e, he⟩ := Option.ne_none_iff_exists'.mp hfails
        rw [hhealthy, he]
        rcases w.hasBus with _ | _
        · rfl
        · rfl
    · rw [if_neg hblocked]
      have hbus : w.hasBus = true := by
        rw [← Bool.not_eq_false]
        exact fun h => hblocked ⟨hmode, .inl h⟩
      rw [hbus]
      rcases hhealthy : env.busHealthy with _ | _
      · exact happly
      · have hfails : env.fails (.publishAndAwait k reg.quorumSize) = none := by
          by_contra hne
          exact hblocked ⟨hmode, .inr ⟨hhealthy, hne⟩⟩
        rw [hfails]
        exact happly
  | strongLocal =>
    rw [if_neg (hfree (by rw [hmode]; decide))]
    exact happly

end Warp

/-- The call of `cache.Set` in an operation. -/
def KeyOp.write (w : Warp T) (env : Env) (k : Key) : KeyOp T → Option (CacheWrite T)
  | .get => w.getWrite env k
  | .set value => w.setWrite env k value
  | .invalidate => none

/-! ## A Set in which nothing fails -/

namespace Warp

/-- The value a `Set` merges with when no call fails and `cache.Get` reads the
clock at `now`. -/
def baseAt (w : Warp T) (now : Instant) (k : Key) : Option (Value T) :=
  match w.cache.get now k with
  | some old => some old
  | none =>
    if w.storeKind ≠ .absent ∧ w.merges.hasCustom k then
      (w.store k).map fun data => Value.written data zeroInstant
    else
      none

/-- The Warp after the local part of a `Set` that writes `v`. -/
def wrote (w : Warp T) (env : Env) (k : Key) (reg : Registration) (v : Value T) : Warp T :=
  let w := { w with
    cache := w.cache.set (env.clock (.call (.cacheSet k))) k v (env.effectiveTTL k reg) }
  let w := if w.storeKind ≠ .absent then w.storeSet k v.data else w
  w.touch k (env.ttl k reg) (env.clock (.operation k))

variable {w : Warp T} {env : Env} {k : Key} {reg : Registration}

theorem mergeBase_of_working (hworking : ∀ c, env.fails c = none) : w.mergeBase env k =
      .ok (w.baseAt (env.clock (.call (.cacheGet k))) k) := by
  rw [mergeBase, cacheGet, hworking, storeGet, hworking, baseAt]
  rcases w.cache.get (env.clock (.call (.cacheGet k))) k with _ | old
  · dsimp only
    split
    · rfl
    · rfl
  · rfl

theorem exec_applySet_of_working (hworking : ∀ c, env.fails c = none) (v : Value T) :
    exec (applySet env k reg v) w = (.ok (), w.wrote env k reg v) := by
  rw [applySet, exec_bind_ok (exec_get w), cacheFault, hworking, ite_self, hworking, wrote]
  simp only [cacheSet, hworking]
  by_cases hstore : w.storeKind ≠ .absent
  · rw [if_pos hstore, if_pos hstore]
    rfl
  · rw [if_neg hstore, if_neg hstore]
    rfl

theorem exec_set_of_working (hreg : w.regs k = some reg)
    (hmode : reg.mode = .strongLocal) (hworking : ∀ c, env.fails c = none) (value : T) :
    exec (set env k value) w = (.ok (), w.wrote env k reg (w.newValue env k value
        (w.baseAt (env.clock (.call (.cacheGet k))) k))) := by
  rw [set, exec_bind_ok (exec_get w), hreg]
  dsimp only
  rw [mergeBase_of_working hworking, exec_bind_ok (exec_ofExcept _ w), hmode]
  exact exec_applySet_of_working hworking _

theorem cache_wrote (v : Value T) : (w.wrote env k reg v).cache k = some (Cache.newEntry
      (env.clock (.call (.cacheSet k))) v (env.effectiveTTL k reg)) := by
  rw [wrote]
  dsimp only
  split
  · exact Function.update_self _ _ _
  · exact Function.update_self _ _ _

theorem storeKind_wrote (v : Value T) : (w.wrote env k reg v).storeKind = w.storeKind := by
  rw [wrote]
  dsimp only
  split
  · rfl
  · rfl

theorem regs_wrote (hreg : w.regs k = some reg) (v : Value T) : (w.wrote env k reg v).regs k =
      some (reg.touch (env.ttl k reg) (env.clock (.operation k))) := by
  rw [wrote]
  dsimp only
  split
  · exact regs_touch_self _ k hreg _ _
  · exact regs_touch_self _ k hreg _ _

theorem store_wrote (v : Value T) : (w.wrote env k reg v).store k =
      if w.storeKind = .absent then w.store k else some v.data := by
  rw [wrote]
  by_cases hstore : w.storeKind = .absent
  · rw [if_neg (not_not_intro hstore), if_pos hstore]
    rfl
  · rw [if_pos hstore, if_neg hstore]
    exact Function.update_self _ _ _

end Warp

end GoWarp.Core
