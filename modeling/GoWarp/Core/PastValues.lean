import GoWarp.Core.History

/-!
# Past values with and without reads

A run of `Set`, `Get` and `GetOrSet` on a Warp over a versioned cache is followed
by a second Warp that skips the reads.  The relation between the two Warps
depends on the operations ahead, which say how many versions of a key are still
to come.  Reads of cached values that are not stale keep the relation, and so
does a `Set` done by both.  In the end `GetAt` returns the same from both.
-/

namespace GoWarp.Core

open Support Support.Program
open Function (update update_of_ne update_self)

variable {ω σ T : Type}

/-- The calls of `cache.Cache` for a versioned cache. -/
abbrev VersionedCache.ops (base : CacheOps ω (VersionedValue T) σ) (limit maxEntries : ℤ) :
    CacheOps (BaseWorld ω) (Value T) (VersionedCache σ) :=
  (cache base limit maxEntries).toCacheOps

open VersionedCache (history Reordered ops)
open VersionedValue (extend)

namespace WarpOver

variable {base : CacheOps ω (VersionedValue T) σ} (law : base.Keeping)
  (limit : ℤ) (keys : Finset Key) (w₀ : WarpOver (VersionedCache σ) T)
  {maxEntries : ℤ} {a : World (BaseWorld ω) × WarpOp (BaseWorld ω) T}
  {rest : List (World (BaseWorld ω) × WarpOp (BaseWorld ω) T)}

/-- The Warp `t` is what `s` would be without its reads, with the operations
`rest` ahead. -/
structure ReadFree (rest : List (World (BaseWorld ω) × WarpOp (BaseWorld ω) T))
    (s t : WarpOver (VersionedCache σ) T) : Prop where
  config : SameConfig w₀ s
  config' : SameConfig w₀ t
  store : t.store = s.store
  spawned : t.spawned = s.spawned
  publishes : ∀ task ∈ s.spawned, ∃ k, task = .publish k
  sound : s.cache.Sound law limit keys
  sound' : t.cache.Sound law limit keys
  accounts : ∀ k, w₀.Account limit rest k (history law s.cache k) (history law t.cache k)
  within : ∀ a ∈ rest, ∀ k, a.2.sets = some k → k ∈ keys

section Calls

variable (world : World (BaseWorld ω)) (k : Key)
  (w : WarpOver (VersionedCache σ) T)

/-! ## The calls of the cache -/

theorem exec_cacheGet_versioned : ∃ c, exec (cacheGet (ops base limit maxEntries) world k) w =
        (.ok ((history law w.cache k).bind VersionedValue.latest), { w with cache := c }) ∧
      Reordered law w.cache c := by
  obtain ⟨c, hexec, hreordered⟩ := VersionedCache.exec_get law (world.meets (.cacheGet k)) k w.cache
  exact ⟨c, congrArg (fun r => (r.1, { w with cache := r.2 })) hexec, hreordered⟩

variable {law limit keys w}

theorem exec_cacheSet_versioned (hsound : w.cache.Sound law limit keys) (hlimit : 1 ≤ limit)
    (hfit : maxEntries ≤ 0 ∨ (keys.card : ℤ) ≤ maxEntries) (hk : k ∈ keys)
    (v : Value T) (ttl : Duration) :
    ∃ c, exec (cacheSet (ops base limit maxEntries)
          world k v ttl) w = (.ok (), { w with cache := c }) ∧
      c.Sound law limit keys ∧
      history law c = update (history law w.cache) k
        (some (extend limit (history law w.cache k) v)) := by
  obtain ⟨c, hexec, hhistory, horder⟩ :=
    VersionedCache.exec_set law limit (world.meets (.cacheSet k)) k v ttl (hsound.room hfit hk)
  exact ⟨c, congrArg (fun r => (r.1, { w with cache := r.2 })) hexec,
    hsound.extended hlimit hk hhistory horder, hhistory⟩

end Calls

/-! ## A Warp and what it would be without its reads -/

namespace ReadFree

variable {law limit keys w₀} {s t : WarpOver (VersionedCache σ) T} {k : Key}

theorem tail (h : ReadFree law limit keys w₀ (a :: rest) s t) :
    ReadFree law limit keys w₀ rest s t :=
  { h with
    accounts := fun k => (h.accounts k).tail
    within := fun a ha => h.within a (List.mem_cons_of_mem _ ha) }

section

variable (h : ReadFree law limit keys w₀ rest s t)
include h

theorem reordered {c c' : VersionedCache σ} (hc : Reordered law s.cache c)
    (hc' : Reordered law t.cache c') :
    ReadFree law limit keys w₀ rest { s with cache := c } { t with cache := c' } where
  config := { h.config with }
  config' := { h.config' with }
  store := h.store
  spawned := h.spawned
  publishes := h.publishes
  sound := h.sound.reordered hc
  sound' := h.sound'.reordered hc'
  accounts := by
    intro k
    rw [hc.history, hc'.history]
    exact h.accounts k
  within := h.within

theorem touch_left (k : Key) (ttl : Duration) (now : Instant) :
    ReadFree law limit keys w₀ rest (s.touch k ttl now) t :=
  { h with config := h.config.touch k ttl now }

theorem touch_right (k : Key) (ttl : Duration) (now : Instant) :
    ReadFree law limit keys w₀ rest s (t.touch k ttl now) :=
  { h with config' := h.config'.touch k ttl now }

theorem storeSet (k : Key) (data : T) :
    ReadFree law limit keys w₀ rest (s.storeSet k data) (t.storeSet k data) :=
  { h with
    config := { h.config with }
    config' := { h.config' with }
    store := by rw [WarpOver.storeSet, WarpOver.storeSet, h.store] }

theorem publish (k : Key) :
    ReadFree law limit keys w₀ rest (s.spawn (.publish k)) (t.spawn (.publish k)) :=
  { h with
    config := { h.config with }
    config' := { h.config' with }
    spawned := congrArg (fun tasks => tasks ++ [Task.publish k]) h.spawned
    publishes := by
      intro task htask
      rcases List.mem_append.mp htask with hold | hnew
      · exact h.publishes task hold
      · exact ⟨k, List.mem_singleton.mp hnew⟩ }

theorem takeTask (task : Task) :
    ReadFree law limit keys w₀ rest (s.takeTask task) (t.takeTask task) :=
  { h with
    config := { h.config with }
    config' := { h.config' with }
    spawned := congrArg (fun tasks => tasks.erase task) h.spawned
    publishes := fun task' htask => h.publishes task' (List.mem_of_mem_erase htask) }

end

theorem added (h : ReadFree law limit keys w₀ (a :: rest) s t)
    (hsets : a.2.sets = some k) (v : Value T) {c c' : VersionedCache σ}
    (hsound : c.Sound law limit keys) (hsound' : c'.Sound law limit keys)
    (hc : history law c = update (history law s.cache) k
      (some (extend limit (history law s.cache k) v)))
    (hc' : history law c' = update (history law t.cache) k
      (some (extend limit (history law t.cache k) v))) :
    ReadFree law limit keys w₀ rest { s with cache := c } { t with cache := c' } where
  config := { h.config with }
  config' := { h.config' with }
  store := h.store
  spawned := h.spawned
  publishes := h.publishes
  sound := hsound
  sound' := hsound'
  accounts := by
    intro k'
    rw [hc, hc']
    by_cases hk : k' = k
    · subst hk
      rw [update_self, update_self]
      exact (h.accounts k').set hsets (h.sound.shaped k') (h.sound'.shaped k') v
    · rw [update_of_ne hk, update_of_ne hk]
      exact (h.accounts k').tail
  within := h.tail.within

theorem again (h : ReadFree law limit keys w₀ (a :: rest) s t)
    (hreads : a.2.reads = some k) (hback : w₀.writesBack a.2 = true)
    {v : Value T} {c : VersionedCache σ} (hsound : c.Sound law limit keys)
    (hlatest : (history law s.cache k).bind VersionedValue.latest = some v)
    (hc : history law c = update (history law s.cache) k
      (some (extend limit (history law s.cache k) v))) :
    ReadFree law limit keys w₀ rest { s with cache := c } t where
  config := { h.config with }
  config' := h.config'
  store := h.store
  spawned := h.spawned
  publishes := h.publishes
  sound := hsound
  sound' := h.sound'
  accounts := by
    intro k'
    rw [hc]
    by_cases hk : k' = k
    · subst hk
      obtain ⟨vv, hvv, hv⟩ := Option.bind_eq_some_iff.mp hlatest
      have haccount := h.accounts k'
      rw [update_self, hvv]
      rw [hvv] at haccount
      exact haccount.again hreads hback (h.sound.shaped k' vv hvv) hv
    · rw [update_of_ne hk]
      exact (h.accounts k').tail
  within := h.tail.within

end ReadFree

/-! ## A `Set` by both -/

section Writing

variable {law limit keys w₀} {world : World (BaseWorld ω)} {k : Key}

theorem relates_cacheGet :
    Relates (ReadFree law limit keys w₀ rest) (ReadFree law limit keys w₀ rest)
      (cacheGet (ops base limit maxEntries) world k)
      (cacheGet (ops base limit maxEntries) world k) := by
  intro s t h
  obtain ⟨c, hexec, hc⟩ := exec_cacheGet_versioned law limit world k s
  obtain ⟨c', hexec', hc'⟩ := exec_cacheGet_versioned law limit world k t
  rw [hexec, hexec', (h.accounts k).sameView.latest]
  exact ⟨rfl, h.reordered hc hc'⟩

theorem relates_mergeBase :
    Relates (ReadFree law limit keys w₀ rest) (ReadFree law limit keys w₀ rest)
      (mergeBase (ops base limit maxEntries) world k)
      (mergeBase (ops base limit maxEntries) world k) := by
  refine .seq relates_cacheGet fun old => ?_
  cases old with
  | some old => exact .pure (fun _ _ h => h) _
  | none =>
    refine .get_bind fun s t h => ?_
    have hread : ∀ s' t', s' = s ∧ t' = t →
        ReadFree law limit keys w₀ rest s' t' := by
      rintro s' t' ⟨rfl, rfl⟩
      exact h
    rw [storeGet, storeGet, h.config.storeKind, h.config'.storeKind,
      h.config.merges, h.config'.merges, h.store]
    split
    · refine .seq (.ofExcept hread _) fun stored => ?_
      exact .pure (fun _ _ h => h) _
    · exact .pure hread _

section Set

variable (hlimit : 1 ≤ limit) (hfit : maxEntries ≤ 0 ∨ (keys.card : ℤ) ≤ maxEntries)
  (hsets : a.2.sets = some k)
include hlimit hfit hsets

theorem relates_cacheSet (v : Value T) (ttl ttl' : Duration) :
    Relates (ReadFree law limit keys w₀ (a :: rest)) (ReadFree law limit keys w₀ rest)
      (cacheSet (ops base limit maxEntries) world k v ttl)
      (cacheSet (ops base limit maxEntries) world k v ttl') := by
  intro s t h
  have hk := h.within a List.mem_cons_self k hsets
  obtain ⟨c, hexec, hsound, hc⟩ := exec_cacheSet_versioned world k h.sound hlimit hfit hk v ttl
  obtain ⟨c', hexec', hsound', hc'⟩ :=
    exec_cacheSet_versioned world k h.sound' hlimit hfit hk v ttl'
  rw [hexec, hexec']
  exact ⟨rfl, h.added hsets v hsound hsound' hc hc'⟩

theorem relates_applySet (reg reg' : Registration) (newVal : Value T) :
    Relates (ReadFree law limit keys w₀ (a :: rest)) (ReadFree law limit keys w₀ rest)
      (applySet (ops base limit maxEntries) world k reg newVal)
      (applySet (ops base limit maxEntries) world k reg' newVal) := by
  have htouch : ∀ ttl ttl' now, Relates (ReadFree law limit keys w₀ rest)
        (ReadFree law limit keys w₀ rest)
        (modify fun w => w.touch k ttl now : Program _ Err Unit)
        (modify fun w => w.touch k ttl' now) := by
    intro ttl ttl' now
    refine .modify fun s t h => ?_
    exact (h.touch_left k ttl now).touch_right k ttl' now
  refine .get_bind fun s t h => ?_
  refine .seq ?_ fun _ => ?_
  · apply (relates_cacheSet hlimit hfit hsets newVal _ _).mono
    · rintro s' t' ⟨rfl, rfl⟩
      exact h
    · exact fun _ _ h => h
  · dsimp only
    rw [h.config.storeKind, h.config'.storeKind]
    split
    · refine .seq ?_ fun _ => htouch _ _ _
      exact .perform (fun _ _ h => h) _ fun s t h => h.storeSet k _
    · exact htouch _ _ _

theorem relates_set (value : T) : Relates (ReadFree law limit keys w₀ (a :: rest))
      (ReadFree law limit keys w₀ rest)
      (set (ops base limit maxEntries) world k value)
      (set (ops base limit maxEntries) world k value) := by
  refine .get_bind fun s t h => ?_
  have hread : ∀ s' t', s' = s ∧ t' = t → ReadFree law limit keys w₀ (a :: rest) s' t' := by
    rintro s' t' ⟨rfl, rfl⟩
    exact h
  rcases h.config.regs_cases h.config' k with ⟨hnone, hnone'⟩ | ⟨reg, reg', hreg, hreg', heq⟩
  · dsimp only
    rw [hnone, hnone']
    exact .throw (fun s' t' hst => (hread s' t' hst).tail) _
  · have hmode := congrArg Registration.mode heq
    have hquorum := congrArg Registration.quorumSize heq
    change reg.mode = reg'.mode at hmode
    change reg.quorumSize = reg'.quorumSize at hquorum
    dsimp only
    rw [hreg, hreg']
    dsimp only
    rw [hmode, hquorum, h.config.merges, h.config'.merges, h.config.hasBus, h.config'.hasBus]
    refine .bind (relates_mergeBase.mono hread fun _ _ h => h) (fun _ _ h => h.tail) fun old => ?_
    have hlocal : ∀ newVal, Relates (ReadFree law limit keys w₀ (a :: rest))
        (ReadFree law limit keys w₀ rest)
        (applySet (ops base limit maxEntries) world k reg newVal)
        (applySet (ops base limit maxEntries) world k reg' newVal) :=
      relates_applySet hlimit hfit hsets reg reg'
    cases reg'.mode with
    | eventualDistributed =>
      refine .seq (hlocal _) fun _ => ?_
      split
      · exact .modify fun s t h => h.publish k
      · exact .pure (fun _ _ h => h) ()
    | strongDistributed =>
      exact .checked (fun _ _ h => h) (fun _ _ h => h.tail) (hlocal _) _ _ _
    | strongLocal => exact hlocal _

end Set

end Writing

/-! ## A read by the first Warp only -/

/-- The key is registered and has a cached value that is not stale. -/
def Fresh (c : CacheOps ω (Value T) σ) (world : World ω) (k : Key) (w : WarpOver σ T) : Prop :=
  ∃ reg v, w.regs k = some reg ∧ (exec (cacheGet c world k) w).1 = .ok (some v) ∧
    Warp.isStale reg v (world.clock (.operation k)) = false

/-- The registration of a key after a hit. -/
def afterHit (world : World ω) (k : Key) (reg : Registration) : Registration :=
  let now := world.clock (.operation k)
  if reg.ttlOpts.sliding ∨ 0 < reg.ttlOpts.freqThreshold then
    reg.touch (Warp.slidTTL reg (world.strategyTTL k) now) now
  else
    reg

/-- A `Get` of the key finds no value that is due for a background refresh. -/
def NoRefresh (c : CacheOps ω (Value T) σ) (world : World ω) (k : Key) (w : WarpOver σ T) : Prop :=
  ∀ reg v, w.regs k = some reg → (exec (cacheGet c world k) w).1 = .ok (some v) →
    w.refreshDue (afterHit world k reg) v (world.clock (.operation k)) = false

/-- The operation is a `Set`, a read of a fresh value that starts no background
refresh, or a step of a goroutine. -/
def SetsOrReads (c : CacheOps ω (Value T) σ) (w : WarpOver σ T) (a : World ω × WarpOp ω T) : Prop :=
  match a.2 with
  | .set _ _ => True
  | .task _ _ => True
  | .get k => w.Fresh c a.1 k ∧ w.NoRefresh c a.1 k
  | .getOrSet k _ => w.Fresh c a.1 k
  | _ => False

theorem eager_slide (c : CacheOps ω (Value T) σ) {world : World ω} {k : Key} {w : WarpOver σ T}
    {reg : Registration} {v : Value T} (hreg : w.regs k = some reg)
    (hdue : w.refreshDue (afterHit world k reg) v (world.clock (.operation k)) = false) :
    (w.slide c world k reg v (world.clock (.operation k))).eager k v
      (world.clock (.operation k)) = w.slide c world k reg v (world.clock (.operation k)) := by
  have hregs : (w.slide c world k reg v (world.clock (.operation k))).regs k =
      some (afterHit world k reg) := by
    rw [slide, afterHit]
    split
    · exact (Function.update_self ..).trans (congrArg _ hreg)
    · exact hreg
  have hkind : (w.slide c world k reg v (world.clock (.operation k))).storeKind =
      w.storeKind := by
    rw [slide]
    split <;> rfl
  rw [refreshDue, ← hkind] at hdue
  rw [eager, hregs]
  exact if_neg (Bool.eq_false_iff.mp hdue)

theorem Fresh.lookup {limit maxEntries : ℤ} {world : World (BaseWorld ω)}
    {k : Key} {w : WarpOver (VersionedCache σ) T}
    (h : w.Fresh (ops base limit maxEntries) world k) :
    ∃ reg v c, w.regs k = some reg ∧ exec (cacheGet (ops base limit maxEntries) world k) w =
        (.ok (some v), { w with cache := c }) ∧
      Reordered law w.cache c ∧
      (history law c k).bind VersionedValue.latest = some v ∧
      Warp.isStale reg v (world.clock (.operation k)) = false := by
  obtain ⟨reg, v, hreg, hhit, hstale⟩ := h
  obtain ⟨c, hexec, hc⟩ := exec_cacheGet_versioned law limit world k w
  rw [hexec] at hhit
  have hlatest := Except.ok.inj hhit
  refine ⟨reg, v, c, hreg, ?_, hc, ?_, hstale⟩
  · rw [hexec, hlatest]
  · rw [hc.history, hlatest]

namespace ReadFree

variable {law limit keys w₀} {s t : WarpOver (VersionedCache σ) T} {k : Key} {reg : Registration}

section Reading

variable (hlimit : 1 ≤ limit) (hfit : maxEntries ≤ 0 ∨ (keys.card : ℤ) ≤ maxEntries)
  (hreads : a.2.reads = some k) (world : World (BaseWorld ω))
include hlimit hfit hreads

theorem slide (h : ReadFree law limit keys w₀ (a :: rest) s t)
    (hback : reg.adapts = true → w₀.writesBack a.2 = true) {v : Value T}
    (hlatest : (history law s.cache k).bind VersionedValue.latest = some v) (now : Instant) :
    ReadFree law limit keys w₀ rest (s.slide (ops base limit maxEntries) world k reg v now) t := by
  rw [WarpOver.slide]
  split
  · rename_i hadapts
    have htouched := h.touch_left k (Warp.slidTTL reg (world.strategyTTL k) now) now
    obtain ⟨vv, hvv, _⟩ := Option.bind_eq_some_iff.mp hlatest
    have hk : k ∈ keys := by
      apply h.sound.within
      apply h.sound.entered
      rw [hvv]
      exact Option.some_ne_none vv
    obtain ⟨c, hexec, hsound, hc⟩ := exec_cacheSet_versioned world k
      htouched.sound hlimit hfit hk v _
    dsimp only
    rw [tryCacheSet, hexec]
    apply htouched.again hreads _ hsound hlatest hc
    apply hback
    simpa [Registration.adapts] using hadapts
  · exact h.tail

end Reading

section Steps

variable (hlimit : 1 ≤ limit) (hfit : maxEntries ≤ 0 ∨ (keys.card : ℤ) ≤ maxEntries)
  {world : World (BaseWorld ω)}
include hlimit hfit

theorem get (h : ReadFree law limit keys w₀ ((world, .get k) :: rest) s t)
    (hfresh : s.Fresh (ops base limit maxEntries) world k)
    (hrefresh : s.NoRefresh (ops base limit maxEntries) world k) :
    ReadFree law limit keys w₀ rest (s.get (ops base limit maxEntries) world k).2 t := by
  obtain ⟨reg, v, c, hreg, hexec, hc, hlatest, hstale⟩ := hfresh.lookup law
  have hmoved := h.reordered hc ⟨rfl, List.Perm.refl _⟩
  have hdue := hrefresh reg v hreg (by rw [hexec])
  rw [WarpOver.get, hreg]
  dsimp only
  rw [hexec]
  dsimp only
  rw [getHit]
  by_cases hplain : plainHit { s with cache := c } reg = true
  · rw [if_pos hplain]
    exact hmoved.tail
  · rw [if_neg hplain]
    dsimp only
    rw [hstale, if_neg (fun hs => Bool.false_ne_true hs.1)]
    dsimp only
    rw [eager_slide _ (w := { s with cache := c }) hreg hdue]
    apply hmoved.slide hlimit hfit rfl world _ hlatest
    intro hadapts
    rw [← h.config.writesBack_eq, writesBack, hreg]
    have hplain' : s.plainHit reg = false := Bool.eq_false_iff.mpr hplain
    dsimp only
    rw [hplain', hadapts]
    rfl

theorem getOrSet {loader : Loader (BaseWorld ω) T}
    (h : ReadFree law limit keys w₀ ((world, .getOrSet k loader) :: rest) s t)
    (hfresh : s.Fresh (ops base limit maxEntries) world k) :
    ReadFree law limit keys w₀ rest
      (s.getOrSet (ops base limit maxEntries) world k loader).2 t := by
  obtain ⟨reg, v, c, hreg, hexec, hc, hlatest, hstale⟩ := hfresh.lookup law
  have hmoved := h.reordered hc ⟨rfl, List.Perm.refl _⟩
  have hregistered : s.ensureRegistered k = s := by rw [ensureRegistered, register, hreg]
  rw [WarpOver.getOrSet, hregistered, hreg, getOrLoad, hexec, Option.getD_some]
  dsimp only
  rw [loadHit, hstale, if_neg Bool.false_ne_true]
  apply hmoved.slide hlimit hfit rfl world _ hlatest
  intro hadapts
  rw [← h.config.writesBack_eq, writesBack, hreg]
  exact hadapts

variable [DecidableEq T] {s' : WarpOver (VersionedCache σ) T}

theorem step_read (h : ReadFree law limit keys w₀ (a :: rest) s t)
    (hop : s.SetsOrReads (ops base limit maxEntries) a)
    (hstep : machine (VersionedCache.cache base limit maxEntries) s a = some s')
    (hread : a.2.reads.isNone = false) :
    ReadFree law limit keys w₀ rest s' t := by
  obtain ⟨world, op⟩ := a
  cases op with
  | get k =>
    cases hstep
    exact h.get hlimit hfit hop.1 hop.2
  | getOrSet k loader =>
    cases hstep
    exact h.getOrSet hlimit hfit hop
  | _ => cases hread

theorem step_other (h : ReadFree law limit keys w₀ (a :: rest) s t)
    (hop : s.SetsOrReads (ops base limit maxEntries) a)
    (hstep : machine (VersionedCache.cache base limit maxEntries) s a = some s')
    (hother : a.2.reads.isNone = true) :
    ∃ t', machine (VersionedCache.cache base limit maxEntries) t a = some t' ∧
      ReadFree law limit keys w₀ rest s' t' := by
  obtain ⟨world, op⟩ := a
  cases op with
  | set k value =>
    cases hstep
    refine ⟨_, rfl, ?_⟩
    rw [perform, perform, snd_ended, snd_ended]
    exact (relates_set hlimit hfit rfl value s t h).2
  | task started fetched =>
    rw [machine] at hstep ⊢
    have hstarted : s.enabled (.task started fetched : WarpOp (BaseWorld ω) T) = true := by
      by_contra hnot
      rw [if_neg hnot] at hstep
      cases hstep
    have hstarted' : t.enabled (.task started fetched : WarpOp (BaseWorld ω) T) = true := by
      rw [enabled, h.spawned]
      exact hstarted
    rw [if_pos hstarted] at hstep
    rw [if_pos hstarted']
    cases hstep
    obtain ⟨k, rfl⟩ := h.publishes started (of_decide_eq_true hstarted)
    exact ⟨_, rfl, h.tail.takeTask (.publish k)⟩
  | get k => cases hother
  | getOrSet k loader => cases hother
  | _ => exact hop.elim

end Steps

variable {as : List (World (BaseWorld ω) × WarpOp (BaseWorld ω) T)}

theorem run [DecidableEq T] (hlimit : 1 ≤ limit)
    (hfit : maxEntries ≤ 0 ∨ (keys.card : ℤ) ≤ maxEntries) {s' : WarpOver (VersionedCache σ) T}
    (hrun : (machine (VersionedCache.cache base limit maxEntries)).run s as = some s')
    (hops : (machine (VersionedCache.cache base limit maxEntries)).AllSteps
      (SetsOrReads (ops base limit maxEntries)) s as) (h : ReadFree law limit keys w₀ as s t) :
    ∃ t', (machine (VersionedCache.cache base limit maxEntries)).run t
        (as.filter fun a => a.2.reads.isNone) = some t' ∧
      ReadFree law limit keys w₀ [] s' t' := by
  apply Machine.run_filter _ _ _ _ _ hrun hops h
  · intro a rest s t s' h hop hstep hother
    exact h.step_other hlimit hfit hop hstep hother
  · intro a rest s t s' h hop hstep hread
    exact h.step_read hlimit hfit hop hstep hread

theorem getAt_eq (h : ReadFree law limit keys w₀ rest s t)
    (world : World (BaseWorld ω)) (k : Key) (now : Instant) :
    (s.getAt (VersionedCache.cache base limit maxEntries) world k now).1 =
      (t.getAt (VersionedCache.cache base limit maxEntries) world k now).1 := by
  obtain ⟨c, hexec, _⟩ := VersionedCache.exec_getAt law (world.meets (.cacheGet k)) k now s.cache
  obtain ⟨c', hexec', _⟩ := VersionedCache.exec_getAt law (world.meets (.cacheGet k)) k now t.cache
  have hcall : (VersionedCache.cache base limit maxEntries).getAt =
      some (VersionedCache.getAt base) := rfl
  rw [WarpOver.getAt, WarpOver.getAt, hcall]
  rcases h.config.regs_cases h.config' k with ⟨hnone, hnone'⟩ | ⟨reg, reg', hreg, hreg', _⟩
  · rw [hnone, hnone']
  · rw [hreg, hreg']
    dsimp only
    rw [onCache, exec_zoom, exec_zoom, hexec, hexec', (h.accounts k).sameView.versionAt now]
    cases (history law t.cache k).bind fun vv => vv.versionAt now with
    | none => rfl
    | some v => rfl

theorem start {w : WarpOver (VersionedCache σ) T}
    (hempty : ∀ k, history law w.cache k = none) (horder : w.cache.order = [])
    (hspawned : w.spawned = [])
    (hroom : ∀ k, limit = 1 ∨ w.NoWriteBack k as ∨ (w.added k as : ℤ) ≤ limit) :
    ReadFree law limit (as.filterMap fun a => a.2.sets).toFinset w as w w := by
  have hsound : w.cache.Sound law limit (as.filterMap fun a => a.2.sets).toFinset := by
    constructor
    · rw [horder]
      exact List.nodup_nil
    · intro k hk
      rw [horder] at hk
      cases hk
    · intro k hk
      exact absurd (hempty k) hk
    · intro k vv hvv
      rw [hempty k] at hvv
      cases hvv
  refine ⟨.refl w, SameConfig.refl w, rfl, rfl, ?_, hsound, hsound, ?_, ?_⟩
  · intro task htask
    rw [hspawned] at htask
    cases htask
  · intro k
    rcases hroom k with hone | hno | hfits
    · exact .inl ⟨.inl hone, rfl⟩
    · exact .inl ⟨.inr hno, rfl⟩
    · rw [hempty k]
      refine .inr ⟨.refl none, le_rfl, ?_⟩
      exact (zero_add (w.added k as : ℤ)).trans_le hfits
  · intro a ha k hsets
    exact List.mem_toFinset.mpr (List.mem_filterMap.mpr ⟨a, ha, hsets⟩)

end ReadFree

/-- Take any Warp over an empty versioned cache with at least one version of each
key, and any run of `Set`, and of `Get` and `GetOrSet` of cached values that
are not stale and that start no refresh.  If, for each key, there is one
version only, or the reads of the key do not write back, or the versions of the
key fit into the limit with those that reads write back, and if all the keys
that are set fit into the cache, then `GetAt` returns for every key and time
what it returns after the run without the reads. -/
theorem getAt_eq_without_reads [DecidableEq T] (law : base.Keeping)
    {limit maxEntries : ℤ} (hlimit : 1 ≤ limit)
    {w w' : WarpOver (VersionedCache σ) T}
    {as : List (World (BaseWorld ω) × WarpOp (BaseWorld ω) T)}
    (hempty : ∀ k, history law w.cache k = none) (horder : w.cache.order = [])
    (hspawned : w.spawned = [])
    (hrun : (machine (VersionedCache.cache base limit maxEntries)).run w as = some w')
    (hops : (machine (VersionedCache.cache base limit maxEntries)).AllSteps
      (SetsOrReads (ops base limit maxEntries)) w as)
    (hroom : ∀ k, limit = 1 ∨ w.NoWriteBack k as ∨ (w.added k as : ℤ) ≤ limit)
    (hfit : maxEntries ≤ 0 ∨ ((as.filterMap fun a => a.2.sets).toFinset.card : ℤ) ≤ maxEntries) :
    ∃ w'', (machine (VersionedCache.cache base limit maxEntries)).run w
        (as.filter fun a => a.2.reads.isNone) = some w'' ∧
      ∀ world k t, (w'.getAt (VersionedCache.cache base limit maxEntries) world k t).1 =
          (w''.getAt (VersionedCache.cache base limit maxEntries) world k t).1 := by
  have hstart := ReadFree.start hempty horder hspawned hroom
  obtain ⟨w'', hrun', hend⟩ := hstart.run hlimit hfit hrun hops
  exact ⟨w'', hrun', hend.getAt_eq⟩

/-! ## Examples -/

/-- The versioned cache with two versions of each key, for any number of
keys. -/
def twoVersions : AnyCache (BaseWorld Unit) (Value ℕ)
    (VersionedCache (Key → Option (VersionedValue ℕ))) :=
  VersionedCache.cache keepingOps 2 0

/-- Every key is registered with sliding expiration. -/
def sliding : WarpOver (VersionedCache (Key → Option (VersionedValue ℕ))) ℕ :=
  { bare with
    regs := fun _ => some (Registration.new .strongLocal 10
      { TTLOptions.zero with sliding := true }) }

/-- One `Set`, and a `Get` that writes the value back. -/
def readOnce : List (World (BaseWorld Unit) × WarpOp (BaseWorld Unit) ℕ) :=
  [(calm 1, .set "k" 1), (calm 2, .get "k")]

theorem getAt_eq_without_reads_readOnce :
    ∃ w' w'', (machine twoVersions).run sliding readOnce = some w' ∧
      (machine twoVersions).run sliding [(calm 1, .set "k" 1)] = some w'' ∧
      ∀ world k t, (w'.getAt twoVersions world k t).1 = (w''.getAt twoVersions world k t).1 := by
  have hops : (machine twoVersions).AllSteps
      (SetsOrReads twoVersions.toCacheOps) sliding readOnce := by
    refine ⟨trivial, fun s hs => ?_⟩
    cases hs
    exact ⟨⟨⟨_, _, rfl, rfl, rfl⟩, by rintro _ _ ⟨⟩ _; rfl⟩, fun _ _ => trivial⟩
  have hroom : ∀ k, (2 : ℤ) = 1 ∨ sliding.NoWriteBack k readOnce ∨
      (sliding.added k readOnce : ℤ) ≤ 2 := by
    intro k
    exact .inr (.inr (Int.ofNat_le.mpr List.countP_le_length))
  obtain ⟨w'', hrun', hsame⟩ := getAt_eq_without_reads keeping_keepingOps
    (by decide) (fun _ => rfl) rfl rfl rfl hops hroom (.inl le_rfl)
  exact ⟨_, w'', rfl, hrun', hsame⟩

/-- Two values are set, and the second one is read. -/
def readFull : List (World (BaseWorld Unit) × WarpOp (BaseWorld Unit) ℕ) :=
  [(calm 1, .set "k" 1), (calm 2, .set "k" 2), (calm 3, .get "k")]

def twoKeys : AnyCache (BaseWorld Unit) (Value ℕ)
    (VersionedCache (Key → Option (VersionedValue ℕ))) :=
  VersionedCache.cache keepingOps 2 2

/-- Every key is registered without expiration. -/
def lasting : WarpOver (VersionedCache (Key → Option (VersionedValue ℕ))) ℕ :=
  { bare with
    regs := fun _ => some (Registration.new .strongLocal 0 TTLOptions.zero) }

/-- Two keys are set, the first one is read, and a third one is set. -/
def readOldest : List (World (BaseWorld Unit) × WarpOp (BaseWorld Unit) ℕ) :=
  [(calm 1, .set "a" 1), (calm 2, .set "b" 2), (calm 3, .get "a"), (calm 4, .set "c" 3)]

/-- With sliding expiration, the `Get` makes the first value irretrievable.
With room for two keys, the `Get` keeps one key and removes the other. -/
theorem reads_rewrite_history :
    (machine twoVersions).AllSteps (SetsOrReads twoVersions.toCacheOps) sliding readFull ∧
      ((machine twoVersions).run sliding readFull).map
        (fun w => (w.getAt twoVersions (calm 4) "k" 1).1) = some (Warp.Reply.failed .notFound) ∧
      ((machine twoVersions).run sliding (readFull.filter fun a => a.2.reads.isNone)).map
        (fun w => (w.getAt twoVersions (calm 4) "k" 1).1) = some (Warp.Reply.found 1) ∧
    (machine twoKeys).AllSteps (SetsOrReads twoKeys.toCacheOps) lasting readOldest ∧
      ((machine twoKeys).run lasting readOldest).map (fun w => (w.getAt twoKeys (calm 5) "b" 2).1) =
          some (Warp.Reply.failed .notFound) ∧
      ((machine twoKeys).run lasting (readOldest.filter fun a => a.2.reads.isNone)).map
        (fun w => (w.getAt twoKeys (calm 5) "b" 2).1) = some (Warp.Reply.found 2) := by
  refine ⟨⟨trivial, fun s hs => ⟨trivial, fun s' hs' => ?_⟩⟩, rfl, rfl,
    ⟨trivial, fun s hs => ⟨trivial, fun s' hs' => ?_⟩⟩, rfl, rfl⟩
  · cases hs
    cases hs'
    exact ⟨⟨⟨_, _, rfl, rfl, rfl⟩, by rintro _ _ ⟨⟩ _; rfl⟩, fun _ _ => trivial⟩
  · cases hs
    cases hs'
    exact ⟨⟨⟨_, _, rfl, rfl, rfl⟩, by rintro _ _ ⟨⟩ _; rfl⟩,
      fun _ _ => ⟨trivial, fun _ _ => trivial⟩⟩

end WarpOver

end GoWarp.Core
