import GoWarp.Core.AnyCache

/-!
# The versioned cache

A versioned cache keeps up to `limit` versions of the value of each key, in
another cache.  `Get` returns the latest version, `GetAt` the newest one that
is not after a given time, and `Set` adds a version.  With a limit on the number
of keys, the least recently used key is removed.  The counters of hits, misses
and evictions are left out.

What the versioned cache does is worked out for a base that keeps what is put
into it.
-/

namespace GoWarp.Core

open Support Support.Program
open Function (update)

variable {ω σ T : Type}

/-- `merge.VersionedValue`, the oldest version first. -/
structure VersionedValue (T : Type) where
  versions : List (Value T)
  limit : ℤ
deriving DecidableEq

namespace VersionedValue

/-- `NewVersionedValue`. -/
def new (v : Value T) (limit : ℤ) : VersionedValue T := ⟨[v], limit⟩

/-- `VersionedValue.Add`: only the last versions stay within the limit. -/
def add (vv : VersionedValue T) (v : Value T) : VersionedValue T :=
  let versions := vv.versions ++ [v]
  if 0 < vv.limit ∧ vv.limit < versions.length then
    { vv with versions := versions.drop (versions.length - vv.limit.toNat) }
  else
    { vv with versions := versions }

def latest (vv : VersionedValue T) : Option (Value T) := vv.versions.getLast?

/-- `VersionedValue.At`: the newest version that is not after `t`. -/
def versionAt (vv : VersionedValue T) (t : Instant) : Option (Value T) :=
  vv.versions.reverse.find? fun v => v.timestamp ≤ t

/-- What the next version makes of the versions kept so far. -/
def extend (limit : ℤ) (old : Option (VersionedValue T)) (v : Value T) :
    VersionedValue T :=
  match old with
  | none => new v limit
  | some vv => vv.add v

end VersionedValue

/-! ## The cache -/

/-- `versioned.Cache`: the base, and the keys from the most to the least
recently used one. -/
structure VersionedCache (σ : Type) where
  base : σ
  order : List Key

/-- What the calls of the base meet during one call of the versioned cache. -/
structure BaseWorld (ω : Type) where
  get : ω
  set : ω
  invalidate : ω

namespace VersionedCache

/-- A call of the base. -/
def onBase {α : Type} (p : Program σ Err α) : Program (VersionedCache σ) Err α :=
  zoom VersionedCache.base (fun base s => { s with base := base }) p

/-- `MoveToFront`, for a key that has an entry. -/
def moveToFront (s : VersionedCache σ) (k : Key) : VersionedCache σ :=
  if k ∈ s.order then { s with order := k :: s.order.erase k } else s

section Calls

variable (base : CacheOps ω (VersionedValue T) σ) (limit maxEntries : ℤ)

def get (x : BaseWorld ω) (k : Key) : Program (VersionedCache σ) Err (Option (Value T)) := do
  match ← onBase (base.get x.get k) with
  | none => pure none
  | some vv =>
    modify fun s => s.moveToFront k
    pure vv.latest

def getAt (x : BaseWorld ω) (k : Key) (t : Instant) :
    Program (VersionedCache σ) Err (Option (Value T)) := do
  match ← onBase (base.get x.get k) with
  | none => pure none
  | some vv =>
    modify fun s => s.moveToFront k
    pure (vv.versionAt t)

/-- A key that has been written comes to the front.  A new key may be one too
many: the last one is removed, and an error of the base is ignored. -/
def record (x : BaseWorld ω) (k : Key) : Program (VersionedCache σ) Err Unit := do
  let s ← MonadState.get
  if k ∈ s.order then
    modify fun s => s.moveToFront k
  else if 0 < maxEntries ∧ maxEntries < s.order.length + 1 then
    modify fun s => { s with order := (k :: s.order).dropLast }
    tryCatch (onBase (base.invalidate x.invalidate (s.order.getLast?.getD k))) fun _ => pure ()
  else
    modify fun s => { s with order := k :: s.order }

def set (x : BaseWorld ω) (k : Key) (v : Value T) (ttl : Duration) :
    Program (VersionedCache σ) Err Unit := do
  let old ← onBase (base.get x.get k)
  onBase (base.set x.set k (VersionedValue.extend limit old v) ttl)
  record base maxEntries x k

def invalidate (x : BaseWorld ω) (k : Key) : Program (VersionedCache σ) Err Unit := do
  modify fun s => { s with order := s.order.erase k }
  onBase (base.invalidate x.invalidate k)

/-- `versioned.New`. -/
def cache : AnyCache (BaseWorld ω) (Value T) (VersionedCache σ) where
  get := get base
  set := set base limit maxEntries
  invalidate := invalidate base
  getAt := some (getAt base)

end Calls

theorem faultless_cache {base : CacheOps ω (VersionedValue T) σ}
    (h : base.Faultless) (limit maxEntries : ℤ) :
    (cache base limit maxEntries).Faultless := by
  have hbase : ∀ {α : Type} {p : Program σ Err α}, Succeeds p →
      Succeeds (onBase p) := fun hp => hp.zoom _ _
  constructor
  · intro x k
    refine (hbase (h.get x.get k)).bind fun old => ?_
    cases old with
    | none => exact .pure none
    | some vv => exact (Succeeds.modify _).bind fun _ => Succeeds.pure vv.latest
  · intro x k v ttl
    refine (hbase (h.get x.get k)).bind fun old => ?_
    refine (hbase (h.set x.set k _ ttl)).bind fun _ => ?_
    refine .get_bind fun s => ?_
    split
    · exact .modify _
    · split
      · refine (Succeeds.modify _).bind fun _ => ?_
        have hevict := hbase (h.invalidate x.invalidate (s.order.getLast?.getD k))
        rw [hevict.tryCatch]
        exact hevict
      · exact .modify _
  · intro x k
    exact (Succeeds.modify _).bind fun _ => hbase (h.invalidate x.invalidate k)

end VersionedCache

/-! ## Calls by what the base answers -/

namespace VersionedCache

variable {base : CacheOps ω (VersionedValue T) σ} {old : Option (VersionedValue T)}

theorem exec_lookup_of_base (look : VersionedValue T → Option (Value T))
    {x : BaseWorld ω} {k : Key} {s : VersionedCache σ} {b : σ}
    (hget : exec (base.get x.get k) s.base = (.ok old, b)) :
    exec (do
      match ← onBase (base.get x.get k) with
      | none => pure none
      | some vv =>
        modify fun s => s.moveToFront k
        pure (look vv)) s =
      (.ok (old.bind look),
        if old.isSome then { s with base := b }.moveToFront k
        else { s with base := b }) := by
  rw [exec_bind, onBase, exec_zoom, hget]
  cases old with
  | none => rfl
  | some vv => rfl

theorem exec_set_of_base {limit maxEntries : ℤ} {x : BaseWorld ω} {k : Key}
    {v : Value T} {ttl : Duration} {s : VersionedCache σ} {b b' : σ}
    (hget : exec (base.get x.get k) s.base = (.ok old, b))
    (hset : exec (base.set x.set k (VersionedValue.extend limit old v) ttl) b = (.ok (), b')) :
    exec (set base limit maxEntries x k v ttl) s =
      exec (record base maxEntries x k) { s with base := b' } := by
  rw [set, exec_bind, onBase, exec_zoom, hget]
  dsimp only
  rw [exec_bind, onBase, exec_zoom, hset]

end VersionedCache

/-! ## A base that keeps everything -/

/-- A cache that keeps what is put into it, whatever its TTL. -/
def keepingOps {V : Type} : CacheOps Unit V (Key → Option V) where
  get _ k := do
    let contents ← MonadState.get
    pure (contents k)
  set _ k v _ := modify fun contents => update contents k (some v)
  invalidate _ k := modify fun contents => update contents k none

/-- The base keeps what is put into it. -/
structure CacheOps.Keeping {V : Type} (base : CacheOps ω V σ) where
  contents : σ → Key → Option V
  get : ∀ x k s, ∃ s', exec (base.get x k) s = (.ok (contents s k), s') ∧ contents s' = contents s
  set : ∀ x k v ttl s, ∃ s', exec (base.set x k v ttl) s = (.ok (), s') ∧
    contents s' = update (contents s) k (some v)
  invalidate : ∀ x k s, ∃ s', exec (base.invalidate x k) s = (.ok (), s') ∧
    contents s' = update (contents s) k none

def keeping_keepingOps {V : Type} : (keepingOps : CacheOps Unit V (Key → Option V)).Keeping where
  contents := id
  get _ _ s := ⟨s, rfl, rfl⟩
  set _ _ _ _ _ := ⟨_, rfl, rfl⟩
  invalidate _ _ _ := ⟨_, rfl, rfl⟩

theorem faultless_keepingOps {V : Type} :
    (keepingOps : CacheOps Unit V (Key → Option V)).Faultless where
  get _ _ := .get_bind fun _ => .pure _
  set _ _ _ _ := .modify _
  invalidate _ _ := .modify _

namespace VersionedCache

variable {base : CacheOps ω (VersionedValue T) σ} (law : base.Keeping)

def history (s : VersionedCache σ) (k : Key) : Option (VersionedValue T) := law.contents s.base k

theorem order_moveToFront_perm (s : VersionedCache σ) (k : Key) :
    (s.moveToFront k).order.Perm s.order := by
  rw [moveToFront]
  split
  · rename_i hmem
    exact (List.perm_cons_erase hmem).symm
  · exact .refl _

theorem base_moveToFront (s : VersionedCache σ) (k : Key) : (s.moveToFront k).base = s.base := by
  rw [moveToFront]
  split
  · rfl
  · rfl

/-- The state differs in the order of its keys only. -/
structure Reordered (s s' : VersionedCache σ) : Prop where
  history : history law s' = history law s
  order : s'.order.Perm s.order

theorem exec_lookup (look : VersionedValue T → Option (Value T))
    (x : BaseWorld ω) (k : Key) (s : VersionedCache σ) :
    ∃ s', exec (do
        match ← onBase (base.get x.get k) with
        | none => pure none
        | some vv =>
          modify fun s => s.moveToFront k
          pure (look vv)) s = (.ok ((history law s k).bind look), s') ∧
      Reordered law s s' := by
  obtain ⟨s', hexec, hcontents⟩ := law.get x.get k s.base
  refine ⟨_, exec_lookup_of_base look hexec, ?_⟩
  split
  · refine ⟨?_, order_moveToFront_perm _ k⟩
    funext k'
    rw [history, base_moveToFront]
    exact congrFun hcontents k'
  · exact ⟨hcontents, List.Perm.refl _⟩

theorem exec_get (x : BaseWorld ω) (k : Key) (s : VersionedCache σ) : ∃ s', exec (get base x k) s =
        (.ok ((history law s k).bind VersionedValue.latest), s') ∧
      Reordered law s s' :=
  exec_lookup law VersionedValue.latest x k s

theorem exec_getAt (x : BaseWorld ω) (k : Key) (t : Instant) (s : VersionedCache σ) :
    ∃ s', exec (getAt base x k t) s = (.ok ((history law s k).bind fun vv => vv.versionAt t), s') ∧
      Reordered law s s' :=
  exec_lookup law (fun vv => vv.versionAt t) x k s

theorem exec_set (limit : ℤ) {maxEntries : ℤ} (x : BaseWorld ω) (k : Key)
    (v : Value T) (ttl : Duration) {s : VersionedCache σ}
    (hroom : k ∈ s.order ∨ ¬(0 < maxEntries ∧ maxEntries < s.order.length + 1)) :
    ∃ s', exec (set base limit maxEntries x k v ttl) s = (.ok (), s') ∧
      history law s' = update (history law s) k
        (some (VersionedValue.extend limit (history law s k) v)) ∧
      s'.order.Perm (if k ∈ s.order then s.order else k :: s.order) := by
  obtain ⟨t, hget, hcontents⟩ := law.get x.get k s.base
  obtain ⟨u, hset, hcontents'⟩ := law.set x.set k (.extend limit (law.contents s.base k) v) ttl t
  rw [hcontents] at hcontents'
  rw [exec_set_of_base hget hset, record, exec_bind, Program.exec_get]
  dsimp only
  by_cases hmem : k ∈ s.order
  · rw [if_pos hmem, if_pos hmem]
    refine ⟨_, rfl, ?_, order_moveToFront_perm _ k⟩
    funext k'
    rw [history, base_moveToFront]
    exact congrFun hcontents' k'
  · rw [if_neg hmem, if_neg hmem, if_neg (hroom.resolve_left hmem)]
    exact ⟨_, rfl, hcontents', List.Perm.refl _⟩

end VersionedCache

/-! ## A Warp for examples -/

namespace WarpOver

/-- A world in which nothing fails and every reading of the clock is `now`. -/
def calm (now : Instant) : World (BaseWorld Unit) :=
  { Env.still now with meets := fun _ => ⟨(), (), ()⟩ }

/-- A Warp without a store and a bus, over an empty versioned cache. -/
def bare : WarpOver (VersionedCache (Key → Option (VersionedValue ℕ))) ℕ where
  cache := ⟨fun _ => none, []⟩
  store := fun _ => none
  storeKind := .absent
  hasBus := false
  merges := fun _ => none
  regs := fun _ => none
  traceEnabled := false
  hasLatencyHist := false
  spawned := []

end WarpOver

end GoWarp.Core
