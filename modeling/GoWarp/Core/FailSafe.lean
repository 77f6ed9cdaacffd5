import GoWarp.Core.Expiry
import Mathlib.Tactic.Linarith

/-!
# Reads under a grace period

A key with a static TTL `t` and a grace period `g` is cached for `t + g`.  Until
its entry is older than `t`, a `Get` answers from the cache.  Until the entry is
older than `t + g`, a `Get` asks the store and falls back on the entry when the
store fails.  After that a `Get` answers what the store answers.

Every operation reads the clock once.  The entry of a key is as old as the
operation that called `cache.Set` for it last: its expiry is counted from that
reading, and so is its timestamp, which every merge takes from the later value.
The sum `t + g` must not overflow, for an entry that is written with a negative
TTL does not expire at all.
-/

namespace GoWarp.Core

open Support Support.Program

variable {T : Type}

def TTLOptions.withFailSafe (grace : Duration) (o : TTLOptions) : TTLOptions :=
  { o with failSafeGracePeriod := grace }

/-- The world in which the clock is read once and the calls of the cache do not
fail. -/
def Env.reading (env : Env) (now : Instant) : Env :=
  { env with
    fails := fun
      | .cacheGet _ => none
      | .cacheSet _ => none
      | .cacheInvalidate _ => none
      | c => env.fails c
    clock := fun _ => now }

/-! ## Consulting the store -/

namespace Warp

/-- A `Get` calls `store.Get`. -/
def consultsStore (w : Warp T) (env : Env) (k : Key) : Bool :=
  match w.regs k with
  | none => false
  | some reg =>
    match w.cacheGet env k with
    | .ok (some v) =>
      !w.plainHit reg && isStale reg v (env.clock (.operation k)) &&
        decide (w.storeKind ≠ .absent)
    | _ => decide (w.storeKind ≠ .absent)

theorem get_of_not_consultsStore {w : Warp T} {env env' : Env} {k : Key}
    (h : w.consultsStore env k = false) (hclock : env'.clock = env.clock)
    (hfails : env'.fails (.cacheGet k) = env.fails (.cacheGet k)) (store : Key → Option T) :
    (get { w with store := store } env' k).1 = (w.get env k).1 := by
  have hcache : cacheGet { w with store := store } env' k = w.cacheGet env k := by
    rw [cacheGet, cacheGet, hfails, hclock]
  have hplain (reg) : plainHit { w with store := store } reg = w.plainHit reg := rfl
  rw [consultsStore] at h
  rw [get, get, hcache]
  dsimp only
  rcases hreg : w.regs k with _ | reg
  · rfl
  rw [hreg] at h
  rcases hget : w.cacheGet env k with _ | _ | v
  · simp_all [getMiss]
  · simp_all [getMiss]
  · cases hs : isStale reg v (env.clock (.operation k)) <;>
      cases hp : w.plainHit reg <;> simp_all [getHit]

/-- The call of `cache.Set` in a `Warmup` of the key. -/
def warmWrite (w : Warp T) (env : Env) (k : Key) : Option (CacheWrite T) :=
  match w.regs k, w.storeGet env k with
  | some reg, .ok (some data) => some (fillWrite env k data (env.ttl k reg) reg)
  | _, _ => none

theorem cache_warm (w : Warp T) (env : Env) (k : Key) :
    (w.warm env k).cache = (w.issue env k (w.warmWrite env k)).cache := by
  rw [warm, warmWrite]
  rcases w.regs k with _ | reg
  · rfl
  · rcases w.storeGet env k with e | _ | data
    · rfl
    · rfl
    · exact cache_fill data _

end Warp

/-- A registration with the TTL `t` and the grace period `g`, and without a soft
timeout. -/
structure Registration.FailSafe (t g : Duration) (reg : Registration) : Prop where
  static : reg.Static t g
  current : reg.currentTTL = t
  soft : reg.ttlOpts.softTimeout ≤ 0

namespace Registration.FailSafe

theorem new (mode : Mode) (t g : Duration) :
    (Registration.new mode t (TTLOptions.zero.withFailSafe g)).FailSafe t g :=
  ⟨⟨rfl, rfl, rfl, Int.le_refl 0, rfl⟩, rfl, Int.le_refl 0⟩

theorem upkeep (k : Key) (t g : Duration) : Upkeep k (Registration.FailSafe t g) (· = t) where
  current _ h := h.current
  granted _ _ _ ttl now h₀ h hgrants :=
    ⟨h.static.touch ttl now, h₀.static.grants h₀.current hgrants, h.soft⟩
  captured _ _ ttl now h httl := by
    rw [h.static.strategy]
    exact ⟨h.static.touch ttl now, httl, h.soft⟩

end Registration.FailSafe

/-! ## Runs -/

/-- A Warp, the last reading of the clock, and the reading of the operation that
called `cache.Set` last for a key that is cached. -/
structure Aging (T : Type) where
  warp : Warp T
  now : Instant
  cachedAt : Option Instant

namespace Aging

/-- An operation, or a change of the store by others. -/
inductive Op (T : Type) where
  | key (k : Key) (op : KeyOp T)
  | warmup (keys : List Key) (nodup : keys.Nodup)
  | restock (store : Key → Option T)

namespace Op

def run (w : Warp T) (env : Env) : Op T → Warp T
  | .key k op => (op.run w env k).2
  | .warmup keys _ => w.warmup env keys
  | .restock store => { w with store := store }

/-- The call of `cache.Set` for `k` in an operation. -/
def write (k : Key) (w : Warp T) (env : Env) : Op T → Option (CacheWrite T)
  | .key k' op => if k' = k then op.write w env k else none
  | .warmup keys _ =>
    if w.storeKind ≠ .absent ∧ k ∈ keys then w.warmWrite env k else none
  | .restock _ => none

end Op

/-- One operation at a reading that is not before the last one. -/
def step (k : Key) : Machine (Aging T) (Instant × Env × Op T) :=
  fun s (now, env, op) =>
    if s.now ≤ now then
      let w := op.run s.warp (env.reading now)
      some {
        warp := w
        now := now
        cachedAt :=
          if (op.write k s.warp (env.reading now)).isSome then some now
          else if (w.cache k).isNone then none
          else s.cachedAt }
    else
      none

/-- The cached value of the key, and when it was cached. -/
def entry (s : Aging T) (k : Key) : Option (T × Instant) :=
  (s.warp.cache k).bind fun e => s.cachedAt.map fun c => (e.value.data, c)

/-! ## The cache after an operation -/

section Cache

variable {w : Warp T} {env : Env} {now : Instant} {k : Key}

theorem cacheGet_reading : w.cacheGet (env.reading now) k = .ok (w.cache.get now k) := rfl

theorem cache_issue (write : CacheWrite T) : (w.issue (env.reading now) k (some write)).cache k =
      some (Cache.newEntry now write.value write.ttl) := by
  rw [Warp.issue, Warp.cacheSet]
  exact Function.update_self _ _ _

/-- The entry that a call of `cache.Set` leaves, and without a call the old entry
or none. -/
def Leaves (k : Key) (now : Instant) (w w' : Warp T) : Option (CacheWrite T) → Prop
  | some write =>
    w'.cache k = some (Cache.newEntry now write.value write.ttl)
  | none => w'.cache k = w.cache k ∨ w'.cache k = none

variable {write : Option (CacheWrite T)}

theorem leaves_of_issue {w' : Warp T}
    (h : w'.cache k = (w.issue (env.reading now) k write).cache k) :
    Leaves k now w w' write := by
  cases write with
  | none => exact .inl h
  | some write => exact h.trans (cache_issue write)

theorem Leaves.congr {w₁ w₂ w' : Warp T}
    (h : Leaves k now w₁ w₂ write) (hbefore : w₁.cache k = w.cache k)
    (hafter : w'.cache k = w₂.cache k) : Leaves k now w w' write := by
  cases write with
  | none =>
    rw [Leaves, hafter, ← hbefore]
    exact h
  | some write => exact hafter.trans h

theorem leaves_keyOp (op : KeyOp T) : Leaves k now w (op.run w (env.reading now) k).2
      (op.write w (env.reading now) k) := by
  cases op with
  | get => exact leaves_of_issue (congrFun (Warp.cache_get w _ k) k)
  | set value =>
    rw [KeyOp.run, KeyOp.written_snd]
    exact leaves_of_issue (congrFun (Warp.cache_set w _ k value) k)
  | invalidate =>
    rw [KeyOp.run, KeyOp.written_snd]
    refine preserves_invalidate (P := fun w' : Warp T => w'.cache k = w.cache k ∨ w'.cache k = none)
      ?_ ?_ w (.inl rfl)
    · exact fun _ _ => .inr (Function.update_self _ _ _)
    · exact fun w' _ _ hw' _ _ => hw'

theorem leaves_warmup {keys : List Key} (hnodup : keys.Nodup) (hk : k ∈ keys)
    (hstore : w.storeKind ≠ .absent) :
    Leaves k now w (w.warmup (env.reading now) keys) (w.warmWrite (env.reading now) k) := by
  rw [Warp.warmup, if_neg hstore]
  rw [← keys.map_id] at hnodup
  obtain ⟨w₁, hbefore, hafter⟩ := foldl_of_mem (R := Warp.SameAt k)
    (f := .warm (env.reading now)) (.refl k) Warp.SameAt.trans
    (fun k' _ hne s => (Warp.SameAt.stable s _ (.symm hne)).warm (.refl k s)) hnodup hk w
  have hwrite : w₁.warmWrite (env.reading now) k = w.warmWrite (env.reading now) k := by
    rw [Warp.warmWrite, Warp.warmWrite, Warp.storeGet, Warp.storeGet, hbefore.regs, hbefore.store]
  rw [← hwrite]
  exact (leaves_of_issue (congrFun (Warp.cache_warm w₁ _ k) k)).congr hbefore.cache hafter.cache

theorem leaves_run (op : Op T) : Leaves k now w (op.run w (env.reading now))
      (op.write k w (env.reading now)) := by
  cases op with
  | key k' op =>
    rw [Op.run, Op.write]
    by_cases hk : k' = k
    · subst hk
      rw [if_pos rfl]
      exact leaves_keyOp op
    · rw [if_neg hk]
      exact .inl ((Warp.SameAt.stable w _ (.symm hk)).keyOp (Warp.SameAt.refl k w) op).cache
  | warmup keys nodup =>
    rw [Op.run, Op.write]
    by_cases hstore : w.storeKind = .absent
    · rw [if_neg fun h => h.1 hstore, Warp.warmup, if_pos hstore]
      exact .inl rfl
    by_cases hk : k ∈ keys
    · rw [if_pos ⟨hstore, hk⟩]
      exact leaves_warmup nodup hk hstore
    · rw [if_neg fun h => hk h.2]
      have hsame : ∀ k' ∈ keys, Stable (env.reading now) k' (Warp.SameAt k w) := by
        intro k' hk'
        refine Warp.SameAt.stable w _ ?_
        rintro rfl
        exact hk hk'
      exact Or.inl (Stable.warmup hsame (.refl k w)).cache
  | restock store => exact .inl rfl

end Cache

/-! ## Timestamps -/

theorem lastWriteWins_written (old : Value T) (value : T) (now : Instant) :
    old.lastWriteWins (Value.written value now) =
      if old.timestamp < now then Value.written value now else old := by
  rw [Value.lastWriteWins]
  cases old.vector with
  | none => rfl
  | some vector => rfl

theorem timestamp_mergeOver {merges : Engine T} {k : Key} {value : T}
    {now : Instant} {old : Option (Value T)}
    (hold : ∀ v, old = some v → merges k = none → v.timestamp ≤ now) :
    (merges.mergeOver k old (Value.written value now)).timestamp = now := by
  rcases old with _ | v
  · rfl
  rw [Engine.mergeOver, Engine.merge]
  rcases hcustom : merges k with _ | fn
  · have hle := hold v rfl hcustom
    dsimp only
    rw [Option.getD_some, lastWriteWins_written]
    split
    · rfl
    · rename_i hnot
      exact Int.le_antisymm hle (Int.not_lt.mp hnot)
  · dsimp only
    rcases fn v.data (Value.written value now).data with _ | data
    · rfl
    · rfl

variable {k : Key} {t g : Duration} {w : Warp T} {env : Env} {now : Instant}
  {write : CacheWrite T} {reg : Registration}

theorem timestamp_setWrite {value : T}
    (hcached : ∀ v, w.cache.get now k = some v → v.timestamp ≤ now)
    (hwrite : w.setWrite (env.reading now) k value = some write) :
    write.value.timestamp = now := by
  rw [Warp.setWrite] at hwrite
  split at hwrite
  · cases hwrite
  split at hwrite
  · cases hwrite
  rename_i old hbase
  split at hwrite
  · cases hwrite
  cases hwrite
  refine timestamp_mergeOver fun v hv hcustom => ?_
  rw [hv, Warp.mergeBase, cacheGet_reading] at hbase
  rcases hget : w.cache.get now k with _ | v'
  · -- without a merge function of its own the key is not read from the store
    rw [hget, Engine.hasCustom, hcustom] at hbase
    simp at hbase
  · rw [hget] at hbase
    obtain rfl := Option.some.inj (Except.ok.inj hbase)
    exact hcached v' hget

theorem timestamp_getWrite (hreg : w.regs k = some reg) (hstatic : reg.Static t g)
    (hwrite : w.getWrite (env.reading now) k = some write) :
    write.value.timestamp = now := by
  rw [Warp.getWrite, hreg] at hwrite
  dsimp only at hwrite
  split at hwrite
  · rw [Warp.hitWrite] at hwrite
    split at hwrite
    · cases hwrite
    split at hwrite
    · rw [Warp.staleWrite] at hwrite
      split at hwrite
      · cases hwrite
      split at hwrite
      · cases hwrite
        rfl
      · cases hwrite
    · rw [if_neg hstatic.not_slides] at hwrite
      cases hwrite
  · rw [Warp.missWrite] at hwrite
    split at hwrite
    · cases hwrite
    split at hwrite
    · cases hwrite
      rfl
    · cases hwrite

theorem write_dated (hreg : w.regs k = some reg) (hstatic : reg.Static t g)
    (hcurrent : reg.currentTTL = t)
    (hcached : ∀ v, w.cache.get now k = some v → v.timestamp ≤ now) {op : Op T}
    (hwrite : op.write k w (env.reading now) = some write) :
    write.value.timestamp = now ∧ write.ttl = wrap64 (t + g) := by
  cases op with
  | key k' op =>
    obtain ⟨rfl, hwrite⟩ := Option.ite_none_right_eq_some.mp hwrite
    constructor
    · cases op with
      | get => exact timestamp_getWrite hreg hstatic hwrite
      | set value => exact timestamp_setWrite hcached hwrite
      | invalidate => cases hwrite
    · have httl : (op.write w (env.reading now) k').map CacheWrite.ttl =
          some write.ttl := by
        rw [hwrite, Option.map_some]
      exact hstatic.extends hcurrent (Warp.extends_keyOp hreg op httl)
  | warmup keys nodup =>
    obtain ⟨_, hwrite⟩ := Option.ite_none_right_eq_some.mp hwrite
    rw [Warp.warmWrite, hreg] at hwrite
    split at hwrite
    · rename_i heq _
      cases heq
      cases hwrite
      exact ⟨rfl, hstatic.effectiveTTL⟩
    · cases hwrite
  | restock store => cases hwrite

/-! ## Steps -/

/-- The key has the TTL `t` and the grace period `g`, and a cached entry was
written and dated by the operation that cached it. -/
structure Sound (k : Key) (t g : Duration) (s : Aging T) : Prop where
  kept : s.warp.Kept k (Registration.FailSafe t g) (· = t)
  store : s.warp.storeKind ≠ .absent
  cached : ∀ e, s.warp.cache k = some e → ∃ c, s.cachedAt = some c ∧
    c ≤ s.now ∧ e.value.timestamp = c ∧
    e = Cache.newEntry c e.value (wrap64 (t + g))

theorem kept_run (h : w.Kept k (Registration.FailSafe t g) (· = t))
    (op : Op T) : (op.run w env).Kept k (Registration.FailSafe t g) (· = t) := by
  have hstable := Warp.Kept.stable (T := T) (Registration.FailSafe.upkeep k t g) env
  cases op with
  | key k' op => exact (hstable k').keyOp h op
  | warmup keys nodup => exact Stable.warmup (fun k' _ => hstable k') h
  | restock store => exact h.congr rfl rfl

theorem storeKind_stable (env : Env) (k : Key) :
    Stable env k fun w : Warp T => w.storeKind ≠ .absent where
  cacheSet w v ttl h := by
    rw [Warp.cacheSet]
    split
    · exact h
    · exact h
  cacheInvalidate w h := by
    rw [Warp.cacheInvalidate]
    split
    · exact h
    · exact h
  storeSet _ _ h := h
  touch _ _ _ _ _ h _ _ _ := h
  spawn _ _ _ _ h _ _ _ := h

theorem storeKind_run (h : w.storeKind ≠ .absent) (op : Op T) :
    (op.run w env).storeKind ≠ .absent := by
  cases op with
  | key k' op => exact (storeKind_stable env k').keyOp h op
  | warmup keys nodup =>
    exact Stable.warmup (fun k' _ => storeKind_stable env k') h
  | restock store => exact h

variable {s s' : Aging T} {v : Value T}

theorem Sound.timestamp_le (h : s.Sound k t g)
    (hget : s.warp.cache.get now k = some v) : v.timestamp ≤ s.now := by
  obtain ⟨e, he, hlive⟩ := Option.bind_eq_some_iff.mp hget
  obtain ⟨c, _, hle, htimestamp, _⟩ := h.cached e he
  rw [← CacheEntry.value_of_live hlive, htimestamp]
  exact hle

theorem Sound.step (h : s.Sound k t g) {a : Instant × Env × Op T}
    (hstep : Aging.step k s a = some s') : s'.Sound k t g := by
  obtain ⟨now, env, op⟩ := a
  obtain ⟨hnow, hs'⟩ := Option.ite_none_right_eq_some.mp hstep
  cases hs'
  refine ⟨kept_run h.kept op, storeKind_run h.store op, ?_⟩
  intro e he
  dsimp only at he ⊢
  have hleaves : Leaves k now s.warp (op.run s.warp (env.reading now))
    (op.write k s.warp (env.reading now)) := leaves_run op
  obtain ⟨reg, hreg, hsafe⟩ := h.kept.registered
  cases hwrite : op.write k s.warp (env.reading now) with
  | some write =>
    obtain ⟨htimestamp, httl⟩ := write_dated hreg hsafe.static hsafe.current
      (fun v hv => (h.timestamp_le hv).trans hnow) hwrite
    rw [hwrite] at hleaves
    obtain rfl := Option.mem_unique he hleaves
    refine ⟨now, if_pos rfl, Int.le_refl now, htimestamp, ?_⟩
    rw [← httl]
    rfl
  | none =>
    rw [hwrite] at hleaves
    rcases hleaves with hsame | hnone
    · obtain ⟨c, hc, hle, hdated⟩ := h.cached e (hsame.symm.trans he)
      refine ⟨c, ?_, hle.trans hnow, hdated⟩
      rw [he, hc]
      rfl
    · rw [he] at hnone
      cases hnone

/-! ## What a Get answers -/

/-- What a `Get` answers when it does not fall back on the cache. -/
def storeReply : Except Err (Option T) → Warp.Reply T
  | .ok (some data) => Warp.Reply.found data
  | .ok none => Warp.Reply.failed .notFound
  | .error e => Warp.Reply.failed e

/-- The answers of a `Get` at `now`, by the age of the entry. -/
structure Answers (k : Key) (t g : Duration) (s : Aging T) (now : Instant)
    (env : Env) : Prop where
  /-- the cached value without a call of `store.Get` up to the age `t` -/
  fresh : ∀ data c, s.entry k = some (data, c) →
    ((s.warp.get (env.reading now) k).1 = Warp.Reply.found data ∧
      s.warp.consultsStore (env.reading now) k = false ↔ now - c ≤ t)
  /-- the stored value, or `ErrNotFound`, or the cached value if the store
  fails, up to the age `t + g` -/
  stale : ∀ data c, s.entry k = some (data, c) → t < now - c → now - c ≤ t + g →
      (∀ stored, s.warp.storeGet env k = .ok (some stored) →
        (s.warp.get (env.reading now) k).1 = Warp.Reply.found stored) ∧
      (s.warp.storeGet env k = .ok none ∨ s.warp.storeGet env k = .error .notFound →
          (s.warp.get (env.reading now) k).1.err = some .notFound) ∧
      ∀ e, s.warp.storeGet env k = .error e → e ≠ .notFound →
        (s.warp.get (env.reading now) k).1 = Warp.Reply.found data
  /-- the answer of the store after that, or without an entry -/
  gone : (∀ data c, s.entry k = some (data, c) → t + g < now - c) →
    (s.warp.get (env.reading now) k).1 = storeReply (s.warp.storeGet env k)

theorem get_of_none (hreg : w.regs k = some reg)
    (hstore : w.storeKind ≠ .absent) (hget : w.cache.get now k = none) :
    (w.get (env.reading now) k).1 = storeReply (w.storeGet env k) ∧
      w.consultsStore (env.reading now) k = true := by
  have hread : w.storeGet (env.reading now) k = w.storeGet env k := rfl
  rw [Warp.get, Warp.consultsStore, hreg, cacheGet_reading, hget]
  refine ⟨?_, decide_eq_true hstore⟩
  dsimp only
  rw [Warp.getMiss, if_neg hstore, hread]
  rcases w.storeGet env k with e | _ | data
  · rfl
  · rfl
  · rfl

theorem plainHit_of_grace (hg : 0 < g) (hstatic : reg.Static t g) : w.plainHit reg = false := by
  have hne : ¬ g = 0 := fun h => absurd hg (by rw [h]; decide)
  rw [Warp.plainHit, hstatic.grace, decide_eq_false hne]
  simp

theorem get_of_fresh (hreg : w.regs k = some reg) (hsafe : reg.FailSafe t g) (hg : 0 < g)
    (hget : w.cache.get now k = some v) (hfresh : now ≤ v.timestamp + t) :
    (w.get (env.reading now) k).1 = Warp.Reply.found v.data ∧
      w.consultsStore (env.reading now) k = false := by
  have hstale : Warp.isStale reg v now = false := by
    rw [Warp.isStale, hsafe.current]
    exact decide_eq_false fun h => Int.not_lt.mpr hfresh h.2
  have hclock : (env.reading now).clock (.operation k) = now := rfl
  rw [Warp.get, Warp.consultsStore, hreg, cacheGet_reading, hget]
  dsimp only
  rw [Warp.getHit, plainHit_of_grace hg hsafe.static, hclock, hstale]
  refine ⟨?_, rfl⟩
  rw [if_neg Bool.false_ne_true]
  dsimp only
  rw [if_neg fun h => Bool.false_ne_true (hstale.symm.trans h.1)]

/-- What a `Get` answers on a stale value. -/
def staleReply (data : T) : Except Err (Option T) → Warp.Reply T
  | .ok (some stored) => Warp.Reply.found stored
  | .ok none => ⟨some data, some .notFound⟩
  | .error .notFound => ⟨some data, some .notFound⟩
  | .error _ => Warp.Reply.found data

theorem get_of_stale (hreg : w.regs k = some reg)
    (hsafe : reg.FailSafe t g) (hg : 0 < g) (hstore : w.storeKind ≠ .absent)
    (hget : w.cache.get now k = some v) (hlate : v.timestamp + t < now) :
    (w.get (env.reading now) k).1 = staleReply v.data (w.storeGet env k) ∧
      w.consultsStore (env.reading now) k = true := by
  have hstale : Warp.isStale reg v now = true := by
    rw [Warp.isStale, hsafe.static.grace, hsafe.current]
    exact decide_eq_true ⟨hg, hlate⟩
  have hclock : (env.reading now).clock (.operation k) = now := rfl
  have hread : w.storeGet (env.reading now) k = w.storeGet env k := rfl
  rw [Warp.get, Warp.consultsStore, hreg, cacheGet_reading, hget]
  dsimp only
  rw [Warp.getHit, plainHit_of_grace hg hsafe.static, hclock, hstale,
    decide_eq_true hstore]
  refine ⟨?_, rfl⟩
  rw [if_neg Bool.false_ne_true]
  dsimp only
  rw [if_pos ⟨hstale, hstore⟩, Warp.getStale,
    if_neg fun h => Int.not_lt.mpr hsafe.soft h.1, hread]
  rcases w.storeGet env k with e | _ | data
  · cases e <;> rfl
  · rfl
  · rfl

theorem Sound.get_of_entry (h : s.Sound k t g) (ht : 0 < t) (hg : 0 < g)
    (hsum : t + g < 2 ^ 63) {data : T} {c : Instant} (hentry : s.entry k = some (data, c)) :
    ∃ v, v.data = data ∧ v.timestamp = c ∧ ∀ now,
      s.warp.cache.get now k = if now ≤ c + (t + g) then some v else none := by
  have hpos : 0 < t + g := Int.add_pos ht hg
  have hwrap : wrap64 (t + g) = t + g := wrap64_of_range ⟨le_trans (by decide) hpos.le, hsum⟩
  obtain ⟨e, he, hmap⟩ := Option.bind_eq_some_iff.mp hentry
  obtain ⟨c', hc', _, htimestamp, hnew⟩ := h.cached e he
  rw [hc'] at hmap
  obtain ⟨rfl, rfl⟩ := Prod.mk.inj (Option.some.inj hmap)
  refine ⟨e.value, rfl, htimestamp, fun now => ?_⟩
  rw [Cache.get, he, Option.bind_some, hnew, hwrap, Cache.newEntry,
    if_pos hpos, CacheEntry.live]
  dsimp only
  by_cases hle : now ≤ c' + (t + g)
  · rw [if_pos hle, if_neg (Int.not_lt.mpr hle)]
  · rw [if_neg hle, if_pos (Int.not_le.mp hle)]

theorem Sound.get_of_no_entry (h : s.Sound k t g) (hentry : s.entry k = none)
    (now : Instant) : s.warp.cache.get now k = none := by
  rcases he : s.warp.cache k with _ | e
  · rw [Cache.get, he]
    rfl
  · obtain ⟨c, hc, _⟩ := h.cached e he
    rw [entry, he, hc] at hentry
    cases hentry

theorem Sound.answers (h : s.Sound k t g) (ht : 0 < t) (hg : 0 < g)
    (hsum : t + g < 2 ^ 63) (now : Instant) (env : Env) :
    s.Answers k t g now env := by
  obtain ⟨reg, hreg, hsafe⟩ := h.kept.registered
  refine ⟨?_, ?_, ?_⟩
  · intro data c hentry
    obtain ⟨v, rfl, rfl, hget⟩ := h.get_of_entry ht hg hsum hentry
    constructor
    · rintro ⟨_, hspares⟩
      by_contra hlate
      have hconsults : s.warp.consultsStore (env.reading now) k = true := by
        by_cases hle : now ≤ v.timestamp + (t + g)
        · exact (get_of_stale hreg hsafe hg h.store ((hget now).trans (if_pos hle)) (by linarith)).2
        · exact (get_of_none hreg h.store ((hget now).trans (if_neg hle))).2
      rw [hspares] at hconsults
      cases hconsults
    · intro hfresh
      have hlive := (hget now).trans (if_pos (by linarith))
      exact get_of_fresh hreg hsafe hg hlive (by linarith)
  · intro data c hentry hlate hle
    obtain ⟨v, rfl, rfl, hget⟩ := h.get_of_entry ht hg hsum hentry
    have hlive := (hget now).trans (if_pos (by linarith))
    have hreply : (s.warp.get (env.reading now) k).1 = staleReply v.data (s.warp.storeGet env k) :=
      (get_of_stale hreg hsafe hg h.store hlive (by linarith)).1
    rw [hreply]
    refine ⟨?_, ?_, ?_⟩
    · intro stored hstored
      rw [hstored]
      rfl
    · rintro (hnone | hnone)
      · rw [hnone]
        rfl
      · rw [hnone]
        rfl
    · intro e herror hne
      rw [herror]
      cases e with
      | notFound => exact absurd rfl hne
      | _ => rfl
  · intro hold
    refine (get_of_none hreg h.store ?_).1
    rcases hentry : s.entry k with _ | ⟨data, c⟩
    · exact h.get_of_no_entry hentry now
    · obtain ⟨v, _, _, hget⟩ := h.get_of_entry ht hg hsum hentry
      have hgone := hold data c hentry
      exact (hget now).trans (if_neg (by linarith))

/-! ## Every run -/

/-- A Warp at the first reading of the clock. -/
def start (w : Warp T) (now : Instant) : Aging T := ⟨w, now, none⟩

theorem sound_start {mode : Mode} (hstore : w.storeKind ≠ .absent) (hreg : w.regs k =
      some (Registration.new mode t (TTLOptions.zero.withFailSafe g)))
    (hcache : w.cache k = none) (hspawned : w.spawned = []) (now : Instant) :
    (start w now).Sound k t g := by
  refine ⟨⟨⟨_, hreg, Registration.FailSafe.new mode t g⟩, ?_⟩, hstore, ?_⟩
  · intro task hmem
    rw [start, hspawned] at hmem
    cases hmem
  · intro e he
    rw [start, hcache] at he
    cases he

/-- After any operations on a Warp with a store, with a reading of the clock for
each that is not before the last one and with any answers of the store, a `Get`
of a key with the TTL `t` and the grace period `g` answers by the age of the
entry. -/
theorem get_by_age (ht : 0 < t) (hg : 0 < g) (hsum : t + g < 2 ^ 63)
    {mode : Mode} (hstore : w.storeKind ≠ .absent)
    (hreg : w.regs k = some (Registration.new mode t (TTLOptions.zero.withFailSafe g)))
    (hcache : w.cache k = none) (hspawned : w.spawned = []) {first : Instant}
    {ops : List (Instant × Env × Op T)}
    (hrun : (Aging.step k).run (start w first) ops = some s) (now : Instant)
    (env : Env) : s.Answers k t g now env := by
  have hsound : s.Sound k t g := (Aging.step k).run_invariant (fun _ _ _ h => h.step) hrun
    (sound_start hstore hreg hcache hspawned first)
  exact hsound.answers ht hg hsum now env

/-- A key with a TTL and a grace period, and nothing cached. -/
def graced (t g : Duration) : Warp ℕ :=
  { Warp.localWarp with
    cache := fun _ => none
    regs := fun _ => some (Registration.new .strongLocal t (TTLOptions.zero.withFailSafe g)) }

/-- A world in which reads of the store fail. -/
def unreadable : Env :=
  { Warp.workingEnv with
    fails := fun
      | .storeGet _ => some (.component 0)
      | _ => none }

/-- A write at the instant 0. -/
def written : List (Instant × Env × Op ℕ) := [(0, Warp.workingEnv, .key "k" (.set 3))]

theorem get_by_age_written : ∃ s, (step "k").run (start (graced 60 30) 0) written = some s ∧
      (s.warp.get (unreadable.reading 70) "k").1 = Warp.Reply.found 3 := by
  obtain ⟨s, hrun, hentry, hread⟩ : ∃ s, (step "k").run (start (graced 60 30) 0) written = some s ∧
      s.entry "k" = some (3, 0) ∧
      s.warp.storeGet unreadable "k" = .error (.component 0) :=
    ⟨_, rfl, rfl, rfl⟩
  refine ⟨s, hrun, ?_⟩
  have hanswers := get_by_age (t := 60) (g := 30) (by decide) (by decide)
    (by decide) (by decide) rfl rfl rfl hrun 70 unreadable
  obtain ⟨_, _, hfallback⟩ := hanswers.stale 3 0 hentry (by decide) (by decide)
  exact hfallback (.component 0) hread (by decide)

/-- The TTL and the grace period add up to `2 ^ 63`.  The entry does not expire,
and a `Get` falls back on it when it is older. -/
theorem falls_back_after_grace : ((step "k").run (start (graced (2 ^ 62) (2 ^ 62)) 0) written).map
      (fun s => (s.entry "k", (s.warp.get (unreadable.reading (2 ^ 63 + 1)) "k").1)) =
      some (some (3, 0), Warp.Reply.found 3) := by
  decide

end Aging

end GoWarp.Core
