import GoWarp.Core.Listeners

/-!
# Warmup step by step

`Warmup` lists the registered keys shard by shard, reads each of them from the
store in a goroutine of its own, and fills the cache with the answers as they
arrive.  For each answer it looks the registration of the key up again.  The
calls of `Register`, `RegisterDynamicTTL` and `Unregister` come between these
steps in any order.

A key may be unregistered after it was listed.  The lookup then finds a nil
registration, and `Warmup` faults when it reads the TTL from it; or the key is
unregistered after the lookup, and `Warmup` fills the cache for a key that is
not registered.  Neither happens if no key is unregistered while `Warmup` wants
it.
-/

namespace GoWarp.Core

open Support

variable {T : Type}

def hashString (key : Key) : UInt32 :=
  key.toUTF8.data.foldl (fun hash b => (hash ^^^ b.toUInt32) * 16777619) 2166136261

def regShardCount : ℕ := 512

/-- The index of `Warp.shard`. -/
def shardIndex (key : Key) : ℕ := (hashString key).toNat % regShardCount

theorem shardIndex_lt (key : Key) : shardIndex key < regShardCount := Nat.mod_lt _ (by decide)

/-! ## The registration table -/

/-- A Warp with the keys of its registration table, and for each key the number
of times it was unregistered, which tells the registrations of the key apart. -/
structure Registry (T : Type) where
  warp : Warp T
  keys : List Key
  serial : Key → ℕ
  mem_keys : ∀ k, k ∈ keys ↔ (warp.regs k).isSome = true

namespace Registry

variable {r : Registry T} {k : Key}

theorem mem_keys_enroll (r : Registry T) (k : Key) (reg : Registration) (k' : Key) :
    (k' ∈ if (r.warp.enroll k reg).1 then k :: r.keys else r.keys) ↔
      ((r.warp.enroll k reg).2.regs k').isSome = true := by
  cases hreg : r.warp.regs k with
  | some old =>
    rw [Warp.enroll_of_some hreg]
    exact r.mem_keys k'
  | none =>
    rw [Warp.enroll_of_none hreg, if_pos rfl, List.mem_cons, Warp.setReg]
    by_cases hk : k' = k
    · simp [hk]
    · simp [hk, r.mem_keys k']

/-- `Warp.Register` and `Warp.RegisterDynamicTTL`. -/
def enroll (r : Registry T) (k : Key) (reg : Registration) : Registry T where
  warp := (r.warp.enroll k reg).2
  keys := if (r.warp.enroll k reg).1 then k :: r.keys else r.keys
  serial := r.serial
  mem_keys := r.mem_keys_enroll k reg

def unregister (r : Registry T) (k : Key) : Registry T where
  warp := r.warp.unregister k
  keys := r.keys.filter (· ≠ k)
  serial := Function.update r.serial k (r.serial k + 1)
  mem_keys k' := by
    rw [List.mem_filter, decide_eq_true_eq, r.mem_keys, Warp.unregister, Warp.setReg]
    by_cases hk : k' = k
    · simp [hk]
    · simp [hk]

/-- Record a TTL and an access time in a registration, which may not be the one
of the key any more. -/
def touch (r : Registry T) (k : Key) (serial : ℕ) (ttl : Duration) (now : Instant) : Registry T :=
  if r.serial k = serial then
    { r with
      warp := r.warp.touch k ttl now
      mem_keys := fun k' => by
        rw [r.mem_keys, Warp.touch]
        by_cases hk : k' = k
        · simp [hk]
        · simp [hk] }
  else
    r

/-- `cache.Set`. -/
def cacheSet (r : Registry T) (env : Env) (k : Key) (v : Value T) (ttl : Duration) : Registry T :=
  { r with
    warp := r.warp.cacheSet env k v ttl
    mem_keys := fun k' => by
      rw [r.mem_keys, Warp.cacheSet]
      split
      · rfl
      · rfl }

theorem mem_enroll (reg : Registration) {k' : Key} (h : k' ∈ r.keys) :
    k' ∈ (r.enroll k reg).keys := by
  rw [enroll]
  dsimp only
  split
  · exact List.mem_cons_of_mem k h
  · exact h

theorem mem_unregister {k' : Key} (hk : k' ≠ k) (h : k' ∈ r.keys) : k' ∈ (r.unregister k).keys :=
  List.mem_filter.mpr ⟨h, decide_eq_true hk⟩

@[simp] theorem keys_touch (r : Registry T) (k : Key) (serial : ℕ)
    (ttl : Duration) (now : Instant) :
    (r.touch k serial ttl now).keys = r.keys := by
  rw [touch]
  split
  · rfl
  · rfl

end Registry

/-! ## Warmup -/

/-- A goroutine that reads a key: it has not read yet, it has an answer to send,
or it has returned. -/
inductive Fetch (T : Type) where
  | reading
  | answered (data : T)
  | returned

/-- The goroutine has not returned. -/
def Fetch.running : Fetch T → Bool
  | .reading => true
  | .answered _ => true
  | .returned => false

/-- The goroutine that waits for the others and closes the channel. -/
inductive Closer where
  | waiting
  | waited
  | closed
deriving DecidableEq

/-- Where `Warmup` is: before the next shard, at the head of its loop, with an
answer, with the registration found for an answer, before `cache.Set`, at its
end, or stopped by a nil dereference. -/
inductive WarmupPlace (T : Type) where
  | listing (shard : ℕ)
  | collecting
  | received (k : Key) (data : T)
  | found (k : Key) (data : T) (reg : Option (Registration × ℕ))
  | filling (k : Key) (v : Value T) (ttl : Duration)
  | returned
  | faulted

namespace WarmupPlace

/-- The goroutines have been started. -/
def started : WarmupPlace T → Bool
  | .listing _ => false
  | _ => true

/-- The key `Warmup` is working on. -/
def key : WarmupPlace T → Option Key
  | .received k _ => some k
  | .found k _ _ => some k
  | .filling k _ _ => some k
  | _ => none

end WarmupPlace

/-- One `Warmup` in progress.  `cancelled` is the context of the group. -/
structure Warming (T : Type) where
  registry : Registry T
  keys : List Key
  fetches : Key → Fetch T
  results : List (Key × T)
  cancelled : Bool
  closer : Closer
  place : WarmupPlace T

namespace Warming

/-- A call on the registration table, the end of the context, or a step of
`Warmup` or of one of its goroutines. -/
inductive Action where
  | register (k : Key) (mode : Mode) (ttl : Duration) (opts : TTLOptions)
  | registerDynamicTTL (k : Key) (mode : Mode) (hasStrategy : Bool)
      (opts : TTLOptions)
  | unregister (k : Key)
  | cancel
  | list
  | read (env : Env) (k : Key)
  | send (k : Key)
  | giveUp (k : Key)
  | wait
  | close
  | receive
  | lookup
  | touch (env : Env)
  | fill (env : Env)

/-- Append the keys of the next shard, or start the goroutines after the last
one. -/
def list (s : Warming T) : Option (Warming T) :=
  match s.place with
  | .listing shard =>
    if shard < regShardCount then
      some { s with
        keys := s.keys ++ s.registry.keys.filter fun k => shardIndex k = shard
        place := .listing (shard + 1) }
    else
      some { s with place := .collecting }
  | _ => none

/-- The goroutine of a key that has been started and has not returned. -/
def fetching (s : Warming T) (k : Key) : Fetch T :=
  if s.place.started ∧ k ∈ s.keys then s.fetches k else .returned

/-- The state after a step of the goroutine of a key. -/
def setFetch (s : Warming T) (k : Key) (fetch : Fetch T) : Warming T :=
  { s with fetches := Function.update s.fetches k fetch }

/-- `store.Get`; the goroutine returns when there is no answer. -/
def read (s : Warming T) (env : Env) (k : Key) : Option (Warming T) :=
  match s.fetching k with
  | .reading =>
    match s.registry.warp.storeGet env k with
    | .ok (some data) => some (s.setFetch k (.answered data))
    | _ => some (s.setFetch k .returned)
  | _ => none

/-- The answer goes to the channel, which has room for every key. -/
def send (s : Warming T) (k : Key) : Option (Warming T) :=
  match s.fetching k with
  | .answered data =>
    some { s.setFetch k .returned with results := s.results ++ [(k, data)] }
  | _ => none

/-- The goroutine returns because the context of the group has ended. -/
def giveUp (s : Warming T) (k : Key) : Option (Warming T) :=
  if s.cancelled ∧ (s.fetching k).running then
    some (s.setFetch k .returned)
  else
    none

/-- `g.Wait` returns when every goroutine has, and ends the context of the
group. -/
def wait (s : Warming T) : Option (Warming T) :=
  if s.place.started ∧ s.closer = .waiting ∧ ∀ k ∈ s.keys, (s.fetches k).running = false then
    some { s with closer := .waited, cancelled := true }
  else
    none

def close (s : Warming T) : Option (Warming T) :=
  if s.closer = .waited then some { s with closer := .closed } else none

/-- The head of the loop, and the test whether the context has ended. -/
def receive (s : Warming T) : Option (Warming T) :=
  match s.place, s.results with
  | .collecting, (k, data) :: rest =>
    some { s with
      results := rest
      place := if s.cancelled then .returned else .received k data }
  | .collecting, [] =>
    if s.closer = .closed then some { s with place := .returned } else none
  | _, _ => none

/-- The registration of the key is read under the lock of its shard. -/
def lookup (s : Warming T) : Option (Warming T) :=
  match s.place with
  | .received k data =>
    some { s with
      place := .found k data ((s.registry.warp.regs k).map fun reg =>
        (reg, s.registry.serial k)) }
  | _ => none

/-- The TTL is read from the registration, and recorded in it with the time. -/
def touch (s : Warming T) (env : Env) : Option (Warming T) :=
  match s.place with
  | .found _ _ none => some { s with place := .faulted }
  | .found k data (some (reg, serial)) =>
    let now := env.clock (.fetch k)
    let ttl := env.ttl k reg
    some { s with
      registry := s.registry.touch k serial ttl now
      place := .filling k (Value.written data now)
        (wrap64 (ttl + reg.ttlOpts.failSafeGracePeriod)) }
  | _ => none

/-- `cache.Set`, whose error is ignored. -/
def fill (s : Warming T) (env : Env) : Option (Warming T) :=
  match s.place with
  | .filling k v ttl =>
    some { s with
      registry := s.registry.cacheSet env k v ttl
      place := .collecting }
  | _ => none

def step : Machine (Warming T) Action
  | s, .register k mode ttl opts =>
    some { s with
      registry := s.registry.enroll k (Registration.new mode ttl opts) }
  | s, .registerDynamicTTL k mode hasStrategy opts =>
    some { s with
      registry := s.registry.enroll k (Registration.dynamic mode hasStrategy opts) }
  | s, .unregister k =>
    some { s with registry := s.registry.unregister k }
  | s, .cancel => some { s with cancelled := true }
  | s, .list => s.list
  | s, .read env k => s.read env k
  | s, .send k => s.send k
  | s, .giveUp k => s.giveUp k
  | s, .wait => s.wait
  | s, .close => s.close
  | s, .receive => s.receive
  | s, .lookup => s.lookup
  | s, .touch env => s.touch env
  | s, .fill env => s.fill env

/-- `Warmup` is called; without a store it returns at once. -/
def start (r : Registry T) : Warming T where
  registry := r
  keys := []
  fetches := fun _ => .reading
  results := []
  cancelled := false
  closer := .waiting
  place := if r.warp.storeKind = .absent then .returned else .listing 0

/-! ## One answer -/

variable {k : Key}

theorem run_answer_eq_warm {s : Warming T} {data : T}
    (hplace : s.place = .received k data) {env : Env} {reg : Registration}
    (hreg : s.registry.warp.regs k = some reg)
    (hstore : s.registry.warp.storeGet env k = .ok (some data)) :
    (step.run s [.lookup, .touch env, .fill env]).map (fun t => t.registry.warp) =
      some (Warp.warm env s.registry.warp k) := by
  rw [Warp.warm, hreg, hstore]
  simp [Machine.run, step, lookup, touch, fill, hplace, hreg, Registry.touch,
    Registry.cacheSet, Warp.fill, Value.written]

/-! ## What Warmup wants -/

/-- `Warmup` may still look the key up or fill the cache for it. -/
def Wants (s : Warming T) (k : Key) : Prop :=
  s.place.key = some k ∨ s.cancelled = false ∧ (k ∈ s.keys ∧ (s.fetches k).running = true ∨
      k ∈ s.results.map Prod.fst)

/-- The condition on a step: no key is unregistered while `Warmup` wants it. -/
def Spares (s : Warming T) : Action → Prop
  | .unregister k => ¬ s.Wants k
  | _ => True

/-- Every key that `Warmup` wants is registered, and it has not come upon a
missing registration. -/
structure Sound (s : Warming T) : Prop where
  registered : ∀ k, s.Wants k → k ∈ s.registry.keys
  found : ∀ k data, s.place ≠ .found k data none
  running : s.place ≠ .faulted

variable {s s' : Warming T} {a : Action}

theorem Sound.of_wants (h : s.Sound) (hwants : ∀ k, s'.Wants k → s.Wants k)
    (hkeys : ∀ k ∈ s.registry.keys, k ∈ s'.registry.keys)
    (hplace : s'.place = s.place) : s'.Sound where
  registered k hk := hkeys k (h.registered k (hwants k hk))
  found k data := by
    rw [hplace]
    exact h.found k data
  running := by
    rw [hplace]
    exact h.running

theorem Sound.enroll (h : s.Sound) (k : Key) (reg : Registration) :
    ({ s with registry := s.registry.enroll k reg } : Warming T).Sound :=
  h.of_wants (fun _ hk => hk) (fun _ hk => Registry.mem_enroll reg hk) rfl

theorem Sound.unregister (h : s.Sound) (hk : ¬ s.Wants k) :
    ({ s with registry := s.registry.unregister k } : Warming T).Sound where
  registered k' hk' := by
    refine Registry.mem_unregister ?_ (h.registered k' hk')
    rintro rfl
    exact hk hk'
  found := h.found
  running := h.running

theorem Sound.list (h : s.Sound) (hstep : s.list = some s') : s'.Sound := by
  rw [Warming.list] at hstep
  split at hstep
  next shard hplace =>
    split at hstep
    · cases hstep
      refine ⟨?_, fun _ _ => by simp, by simp⟩
      rintro k (hkey | ⟨hctx, ⟨hk, hrun⟩ | hk⟩)
      · cases hkey
      · rcases List.mem_append.mp hk with hold | hnew
        · exact h.registered k (.inr ⟨hctx, .inl ⟨hold, hrun⟩⟩)
        · -- a key is registered when it is listed
          exact List.mem_of_mem_filter hnew
      · exact h.registered k (.inr ⟨hctx, .inr hk⟩)
    · cases hstep
      refine ⟨?_, fun _ _ => by simp, by simp⟩
      rintro k (hkey | hk)
      · cases hkey
      · exact h.registered k (.inr hk)
  next => cases hstep

/-! The goroutines -/

theorem fetches_of_fetching (h : (s.fetching k).running = true) :
    k ∈ s.keys ∧ s.fetches k = s.fetching k := by
  rw [fetching] at h ⊢
  by_cases hk : s.place.started = true ∧ k ∈ s.keys
  · rw [if_pos hk]
    exact ⟨hk.2, rfl⟩
  · rw [if_neg hk] at h
    cases h

theorem wants_of_fetching (h : (s.fetching k).running = true)
    (hctx : s.cancelled = false) : s.Wants k := by
  obtain ⟨hk, heq⟩ := fetches_of_fetching h
  exact .inr ⟨hctx, .inl ⟨hk, by rw [heq, h]⟩⟩

theorem wants_of_setFetch {k' : Key} {fetch : Fetch T} (hrun : (s.fetching k).running = true)
    (h : (s.setFetch k fetch).Wants k') : s.Wants k' := by
  rcases h with hkey | ⟨hctx, ⟨hk', hrun'⟩ | hk'⟩
  · exact .inl hkey
  · by_cases hk : k' = k
    · rw [hk]
      exact wants_of_fetching hrun hctx
    · rw [setFetch] at hrun'
      dsimp only at hrun'
      rw [Function.update_of_ne hk] at hrun'
      exact .inr ⟨hctx, .inl ⟨hk', hrun'⟩⟩
  · exact .inr ⟨hctx, .inr hk'⟩

section

variable (h : s.Sound)
include h

theorem Sound.setFetch (hrun : (s.fetching k).running = true) (fetch : Fetch T) :
    (s.setFetch k fetch).Sound :=
  h.of_wants (fun _ => wants_of_setFetch hrun) (fun _ hk => hk) rfl

theorem Sound.read {env : Env} (hstep : s.read env k = some s') : s'.Sound := by
  rw [Warming.read] at hstep
  split at hstep
  next hfetch =>
    have hrun : (s.fetching k).running = true := by rw [hfetch]; rfl
    split at hstep
    · cases hstep
      exact h.setFetch hrun _
    · cases hstep
      exact h.setFetch hrun _
  next => cases hstep

theorem Sound.send (hstep : s.send k = some s') : s'.Sound := by
  rw [Warming.send] at hstep
  split at hstep
  next data hfetch =>
    have hrun : (s.fetching k).running = true := by rw [hfetch]; rfl
    cases hstep
    refine h.of_wants ?_ (fun _ hk => hk) rfl
    rintro k' (hkey | ⟨hctx, hk' | hk'⟩)
    · exact .inl hkey
    · exact wants_of_setFetch hrun (.inr ⟨hctx, .inl hk'⟩)
    · rw [List.map_append, List.mem_append] at hk'
      rcases hk' with hold | hnew
      · exact .inr ⟨hctx, .inr hold⟩
      · rw [List.mem_singleton.mp hnew]
        exact wants_of_fetching hrun hctx
  next => cases hstep

theorem Sound.giveUp (hstep : s.giveUp k = some s') : s'.Sound := by
  rw [Warming.giveUp, Option.ite_none_right_eq_some] at hstep
  obtain ⟨⟨_, hrun⟩, hs'⟩ := hstep
  cases hs'
  exact h.setFetch hrun _

theorem Sound.cancel (closer : Closer) :
    ({ s with closer := closer, cancelled := true } : Warming T).Sound := by
  refine h.of_wants ?_ (fun _ hk => hk) rfl
  rintro k (hkey | ⟨hctx, _⟩)
  · exact .inl hkey
  · cases hctx

theorem Sound.wait (hstep : s.wait = some s') : s'.Sound := by
  rw [Warming.wait, Option.ite_none_right_eq_some] at hstep
  obtain rfl := Option.some.inj hstep.2
  exact h.cancel .waited

theorem Sound.close (hstep : s.close = some s') : s'.Sound := by
  rw [Warming.close, Option.ite_none_right_eq_some] at hstep
  obtain rfl := Option.some.inj hstep.2
  exact h.of_wants (fun _ hk => hk) (fun _ hk => hk) rfl

/-! The loop -/

theorem Sound.goto {place : WarmupPlace T} (hkey : ∀ k, place.key = some k → k ∈ s.registry.keys)
    (hfound : ∀ k data, place ≠ .found k data none)
    (hrunning : place ≠ .faulted) {registry : Registry T}
    (hkeys : registry.keys = s.registry.keys) :
    ({ s with registry := registry, place := place } : Warming T).Sound where
  registered k hk := by
    change k ∈ registry.keys
    rw [hkeys]
    rcases hk with hk | hk
    · exact hkey k hk
    · exact h.registered k (.inr hk)
  found := hfound
  running := hrunning

theorem Sound.receive (hstep : s.receive = some s') : s'.Sound := by
  rw [Warming.receive] at hstep
  split at hstep
  next k data rest hplace hresults =>
    cases hstep
    have hrest : ({ s with results := rest } : Warming T).Sound := by
      refine h.of_wants ?_ (fun _ hk' => hk') rfl
      rintro k' (hkey | ⟨hctx, hk' | hk'⟩)
      · exact .inl hkey
      · exact .inr ⟨hctx, .inl hk'⟩
      · refine .inr ⟨hctx, .inr ?_⟩
        rw [hresults]
        exact List.mem_cons_of_mem k hk'
    refine hrest.goto ?_ ?_ ?_ rfl
    · intro k' hkey
      split at hkey
      next => cases hkey
      next hctx =>
        -- the key is registered because the answer was in the channel
        cases hkey
        refine h.registered k (.inr ⟨Bool.eq_false_of_not_eq_true hctx, ?_⟩)
        exact .inr (by simp [hresults])
    · intro k' data'
      split
      · simp
      · simp
    · split
      · simp
      · simp
  next =>
    split at hstep
    · cases hstep
      exact h.goto (fun _ hkey => by cases hkey) (fun _ _ => by simp) (by simp) rfl
    · cases hstep
  next => cases hstep

theorem Sound.lookup (hstep : s.lookup = some s') : s'.Sound := by
  rw [Warming.lookup] at hstep
  split at hstep
  next k data hplace =>
    cases hstep
    have hk : k ∈ s.registry.keys := h.registered k (.inl (by rw [hplace]; rfl))
    obtain ⟨reg, hreg⟩ := Option.isSome_iff_exists.mp ((s.registry.mem_keys k).mp hk)
    refine h.goto ?_ ?_ (by simp) rfl
    · rintro k' ⟨⟩
      exact hk
    · intro k' data'
      simp [hreg]
  next => cases hstep

theorem Sound.touch {env : Env} (hstep : s.touch env = some s') : s'.Sound := by
  rw [Warming.touch] at hstep
  split at hstep
  next k data hplace => exact absurd hplace (h.found k data)
  next k data reg serial hplace =>
    cases hstep
    refine h.goto ?_ (fun _ _ => by simp) (by simp) (by simp)
    rintro k' ⟨⟩
    exact h.registered k (.inl (by rw [hplace]; rfl))
  next => cases hstep

theorem Sound.fill {env : Env} (hstep : s.fill env = some s') : s'.Sound := by
  rw [Warming.fill] at hstep
  split at hstep
  next =>
    cases hstep
    exact h.goto (fun _ hkey => by cases hkey) (fun _ _ => by simp) (by simp) rfl
  next => cases hstep

theorem Sound.step (ha : s.Spares a) (hstep : Warming.step s a = some s') : s'.Sound := by
  cases a with
  | register k mode ttl opts | registerDynamicTTL k mode hasStrategy opts =>
    cases hstep
    exact h.enroll k _
  | unregister k =>
    cases hstep
    exact h.unregister ha
  | cancel =>
    cases hstep
    exact h.cancel s.closer
  | list => exact h.list hstep
  | read env k => exact h.read hstep
  | send k => exact h.send hstep
  | giveUp k => exact h.giveUp hstep
  | wait => exact h.wait hstep
  | close => exact h.close hstep
  | receive => exact h.receive hstep
  | lookup => exact h.lookup hstep
  | touch env => exact h.touch hstep
  | fill env => exact h.fill hstep

end

theorem sound_start (r : Registry T) : (start r).Sound where
  registered k hk := by
    have hkey : (start r).place.key = none := by
      rw [start]
      dsimp only
      split
      · rfl
      · rfl
    rcases hk with hk | ⟨_, ⟨hk, _⟩ | hk⟩
    · rw [hkey] at hk
      cases hk
    · cases hk
    · cases hk
  found k data := by
    rw [start]
    dsimp only
    split
    · simp
    · simp
  running := by
    rw [start]
    dsimp only
    split
    · simp
    · simp

/-! ## Runs -/

/-- A key for which the cache is about to be filled is registered. -/
def FillsRegistered (s : Warming T) : Action → Prop
  | .fill _ => ∀ k v ttl, s.place = .filling k v ttl →
      (s.registry.warp.regs k).isSome = true
  | _ => True

theorem Sound.fillsRegistered (h : s.Sound) (a : Action) : s.FillsRegistered a := by
  cases a with
  | fill env =>
    intro k v ttl hplace
    rw [← s.registry.mem_keys k]
    exact h.registered k (.inl (by rw [hplace]; rfl))
  | _ => trivial

/-- In every run of a `Warmup` with calls that change the registrations, if no
key is unregistered while `Warmup` wants it, `Warmup` does not dereference a
missing registration, and it fills the cache only for registered keys. -/
theorem warmup_safe {r : Registry T} {as : List Action} (hrun : step.run (start r) as = some s)
    (hspares : step.AllSteps Spares (start r) as) :
    s.place ≠ .faulted ∧ step.AllSteps FillsRegistered (start r) as := by
  constructor
  · have hsound : s.Sound := step.run_invariant_of_allSteps
      (fun _ _ _ h ha hstep => h.step ha hstep) hrun hspares (sound_start r)
    exact hsound.running
  · exact hspares.of_invariant (fun _ _ _ h ha hstep => h.step ha hstep)
      (fun _ a h _ => h.fillsRegistered a) (sound_start r)

/-! ## The snapshot -/

theorem run_list {n shard : ℕ} (hshard : shard + n = regShardCount)
    (hplace : s.place = .listing shard) :
    ∃ keys, step.run s (List.replicate (n + 1) .list) =
        some { s with keys := keys, place := .collecting } ∧
      ∀ k, k ∈ keys ↔ k ∈ s.keys ∨ k ∈ s.registry.keys ∧ shard ≤ shardIndex k := by
  induction n generalizing shard s with
  | zero =>
    have hlast : ¬ shard < regShardCount := by omega
    refine ⟨s.keys, ?_, fun k => ?_⟩
    · simp [Machine.run, step, list, hplace, hlast]
    · have hlt := shardIndex_lt k
      exact ⟨.inl, fun h => h.resolve_right fun h' => by omega⟩
  | succ n ih =>
    have hlt : shard < regShardCount := by omega
    let t : Warming T := { s with
      keys := s.keys ++ s.registry.keys.filter fun k => shardIndex k = shard
      place := .listing (shard + 1) }
    have hstep : step s .list = some t := by simp [step, list, hplace, hlt, t]
    have hshard' : shard + 1 + n = regShardCount := by omega
    obtain ⟨keys, hrun, hkeys⟩ := ih hshard' (s := t) rfl
    refine ⟨keys, (step.run_cons_of_step hstep _).trans hrun, fun k => ?_⟩
    have hle : shard ≤ shardIndex k ↔ shardIndex k = shard ∨ shard + 1 ≤ shardIndex k := by omega
    rw [hkeys k, List.mem_append, List.mem_filter, decide_eq_true_eq, or_assoc,
      ← and_or_left, ← hle]

/-- All the steps of the snapshot. -/
def snapshot : List Action := List.replicate (regShardCount + 1) .list

theorem run_snapshot {r : Registry T} (hstore : r.warp.storeKind ≠ .absent) :
    ∃ keys, step.run (start r) snapshot = some { start r with keys := keys, place := .collecting } ∧
      ∀ k, k ∈ keys ↔ k ∈ r.keys := by
  obtain ⟨keys, hrun, hkeys⟩ := run_list (Nat.zero_add _) (s := start r) (if_neg hstore)
  refine ⟨keys, hrun, fun k => (hkeys k).trans ?_⟩
  simp [start]

theorem run_read_send (hstarted : s.place.started = true) (hk : k ∈ s.keys)
    (hfetch : s.fetches k = .reading) {env : Env}
    {data : T} (hstore : s.registry.warp.storeGet env k = .ok (some data)) :
    step.run s [.read env k, .send k] = some { s with
      fetches := Function.update s.fetches k .returned
      results := s.results ++ [(k, data)] } := by
  simp [Machine.run, step, read, send, fetching, setFetch, hstarted, hk, hfetch, hstore]

/-! ## Two registered keys -/

/-- Two registered keys, an empty cache, and a store that has both keys. -/
def twoKeys : Registry ℕ where
  warp := { Warp.localWarp with
    cache := fun _ => none
    regs := fun k => if k ∈ ["k", "l"] then
      some (Registration.new .strongLocal 60 TTLOptions.zero) else none }
  keys := ["k", "l"]
  serial := fun _ => 0
  mem_keys k := by
    by_cases hk : k ∈ ["k", "l"]
    · simp [hk]
    · simp [hk]

/-- The answer for a key is in the channel. -/
def answer : List Action := snapshot ++ [.read Warp.workingEnv "k", .send "k"]

theorem run_answer {r : Registry ℕ} (hstore : r.warp.storeKind = .plain)
    (hk : "k" ∈ r.keys) (hdata : r.warp.store "k" = some 1) :
    ∃ keys, step.run (start r) answer = some { start r with
      keys := keys
      fetches := Function.update (fun _ => .reading) "k" .returned
      results := [("k", 1)]
      place := .collecting } := by
  obtain ⟨keys, hrun, hkeys⟩ := run_snapshot (r := r) (by simp [hstore])
  refine ⟨keys, ?_⟩
  rw [answer, step.run_append, hrun]
  exact run_read_send rfl ((hkeys "k").mpr hk) rfl (congrArg Except.ok hdata)

/-- A key is unregistered when its answer is in the channel, or after its
registration was looked up: in the first run `Warmup` faults, and in the second
one it is about to fill the cache for a key that is not registered. -/
theorem faults_or_fills_unregistered :
    (∃ s, step.run (start twoKeys) (answer ++ [.unregister "k", .receive,
        .lookup, .touch Warp.workingEnv]) = some s ∧ s.place = .faulted) ∧
      ∃ s, step.run (start twoKeys) (answer ++ [.receive, .lookup,
        .unregister "k", .touch Warp.workingEnv]) = some s ∧
          ¬ s.FillsRegistered (.fill Warp.workingEnv) := by
  obtain ⟨keys, hrun⟩ := run_answer (r := twoKeys) rfl (by decide) rfl
  constructor
  · rw [step.run_append, hrun]
    exact ⟨_, rfl, rfl⟩
  · rw [step.run_append, hrun]
    refine ⟨_, rfl, fun hfills => ?_⟩
    cases hfills "k" _ _ rfl

/-- Another key is unregistered before the snapshot. -/
def spared : List Action :=
  .unregister "l" :: (answer ++ [.receive, .lookup, .touch Warp.workingEnv, .fill Warp.workingEnv])

theorem spares_spared : step.AllSteps Spares (start twoKeys) spared := by
  constructor
  · -- nothing has been listed
    simp [Spares, Wants, start, twoKeys, Warp.localWarp, WarmupPlace.key]
  · refine fun t _ => step.allSteps_of_states (fun a ha t => ?_) t
    simp only [answer, snapshot, List.mem_append, List.mem_replicate,
      List.mem_cons, List.not_mem_nil, or_false] at ha
    rcases ha with (⟨_, rfl⟩ | rfl | rfl) | rfl | rfl | rfl | rfl <;> trivial

theorem warmup_safe_twoKeys : ∃ s, step.run (start twoKeys) spared = some s ∧ s.place ≠ .faulted ∧
      (s.registry.warp.cache "k").isSome = true := by
  obtain ⟨keys, hanswer⟩ := run_answer (r := twoKeys.unregister "l") rfl (by decide) rfl
  obtain ⟨s, hrun, hcache⟩ : ∃ s, step.run (start twoKeys) spared = some s ∧
      (s.registry.warp.cache "k").isSome = true := by
    rw [spared, step.run_cons_of_step (t := start (twoKeys.unregister "l")) rfl,
      step.run_append, hanswer]
    exact ⟨_, rfl, rfl⟩
  exact ⟨s, hrun, (warmup_safe hrun spares_spared).1, hcache⟩

end Warming

end GoWarp.Core
