import GoWarp.Core.Interleaving

/-!
# Coherence of cache and store under concurrent calls

A `Get` that misses fills the cache with what it read from the store some
time before, and two `Set` calls may reach the cache and the store in
different orders.  Either can leave the cache with a value that the store no
longer holds.  Runs in which every such write is still up to date when it is
made keep cache and store coherent.
-/

namespace GoWarp.Core

open Support

variable {T : Type}

namespace System

/-- Some other thread than those excluded by `P` is a `Set` that has cached
`data` and has yet to store it. -/
def OwedBy (P : ℕ → Prop) (s : System T) (data : T) : Prop :=
  ∃ j newVal now ttl, P j ∧ s.threads j = .setCached newVal now ttl ∧ newVal.data = data

/-- A `Set` that has cached `data` has yet to store it. -/
def Owed (s : System T) (data : T) : Prop := s.OwedBy (fun _ => True) data

/-- An unexpired cached value is the stored one, or about to be stored. -/
def Coherent (k : Key) (s : System T) : Prop :=
  ∀ v, s.warp.cache.get s.clock k = some v → s.warp.store k = some v.data ∨ s.Owed v.data

/-- A value that is written to the cache without being written to the store is
the stored one, or about to be stored; and a value is stored only over a cache
that holds the same value, or one that another `Set` is about to store, or
none. -/
def Orderly (k : Key) (s : System T) : Action T → Prop
  | .cacheSet i _ _ =>
    match s.threads i with
    | .filling _ mv _ => s.warp.store k = some mv.data ∨ s.Owed mv.data
    | .sliding v _ _ => s.warp.store k = some v.data ∨ s.Owed v.data
    | _ => True
  | .storeSet i =>
    match s.threads i with
    | .setCached newVal _ _ =>
      ∀ v, s.warp.cache.get s.clock k = some v →
        newVal.data = v.data ∨ s.OwedBy (fun j => j ≠ i) v.data
    | _ => True
  | _ => True

/-- The step writes neither the cache nor the store at `k`, and no `Set` moves
that is about to store its value. -/
structure Quiet (k : Key) (s s' : System T) : Prop where
  cache : s'.warp.cache k = s.warp.cache k
  store : s'.warp.store k = s.warp.store k
  storeKind : s'.warp.storeKind = s.warp.storeKind
  clock : s.clock ≤ s'.clock
  threads : ∀ i newVal now ttl, s.threads i = .setCached newVal now ttl →
    s'.threads i = .setCached newVal now ttl

namespace Quiet

variable {k : Key} {s s' s'' : System T}

theorem trans (h : Quiet k s s') (h' : Quiet k s' s'') : Quiet k s s'' where
  cache := h'.cache.trans h.cache
  store := h'.store.trans h.store
  storeKind := h'.storeKind.trans h.storeKind
  clock := Int.le_trans h.clock h'.clock
  threads := fun i newVal now ttl hi => h'.threads i newVal now ttl (h.threads i newVal now ttl hi)

theorem goto (s : System T) {i : ℕ} (ph : Phase T)
    (hi : ∀ newVal now ttl, s.threads i ≠ .setCached newVal now ttl) :
    Quiet k s (s.goto i ph) where
  cache := rfl
  store := rfl
  storeKind := rfl
  clock := Int.le_refl _
  threads := fun j newVal now ttl hj => by
    have hne : j ≠ i := fun heq => hi newVal now ttl (heq ▸ hj)
    exact (Function.update_of_ne hne _ _).trans hj

theorem tick (s : System T) {t : Instant} (ht : s.clock ≤ t) : Quiet k s (s.tick t) where
  cache := rfl
  store := rfl
  storeKind := rfl
  clock := ht
  threads := fun _ _ _ _ hj => hj

theorem touch (s : System T) (ttl : Duration) (now : Instant) :
    Quiet k s (s.onWarp fun w => w.touch k ttl now) where
  cache := rfl
  store := rfl
  storeKind := rfl
  clock := Int.le_refl _
  threads := fun _ _ _ _ hj => hj

theorem owed (h : Quiet k s s') {data : T} (howed : s.Owed data) : s'.Owed data := by
  obtain ⟨i, newVal, now, ttl, _, hi, hdata⟩ := howed
  exact ⟨i, newVal, now, ttl, True.intro, h.threads i newVal now ttl hi, hdata⟩

theorem coherent (h : Quiet k s s') (hs : s.Coherent k) : s'.Coherent k := by
  intro v hv
  have hget : s.warp.cache.get s.clock k = some v := by
    apply Cache.get_of_le h.clock
    rw [← hv, Cache.get, Cache.get, h.cache]
  rw [h.store]
  exact (hs v hget).imp id h.owed

end Quiet

/-! ## Steps that write neither the cache nor the store -/

section Steps

variable {k : Key} {reg : Registration} {s s' : System T} {i : ℕ}

/-- The thread is not a `Set` about to store its value. -/
def Settled (s : System T) (i : ℕ) : Prop :=
  ∀ newVal now ttl, s.threads i ≠ .setCached newVal now ttl

variable {ph : Phase T} {d : Duration}

theorem settled_of_eq (h : s.threads i = ph)
    (hph : ∀ newVal now ttl, ph ≠ .setCached newVal now ttl) :
    s.Settled i := by
  intro newVal now ttl heq
  exact hph newVal now ttl (h.symm.trans heq)

variable {t : Instant}

theorem Quiet.tick_goto (ht : s.clock ≤ t) (hi : s.Settled i)
    (ph : Phase T) : Quiet k s ((s.tick t).goto i ph) :=
  (Quiet.tick s ht).trans (Quiet.goto (s.tick t) ph hi)

theorem Quiet.touch_goto (hi : s.Settled i) (ttl : Duration) (now : Instant) (ph : Phase T) :
    Quiet k s ((s.onWarp fun w => w.touch k ttl now).goto i ph) :=
  (Quiet.touch s ttl now).trans (Quiet.goto _ ph hi)

theorem quiet_callStep {r : Request T} (h : callStep s i r = some s') : Quiet k s s' := by
  rw [callStep] at h
  split at h
  next hi =>
    cases h
    exact .goto s _ (settled_of_eq hi (by simp))
  next => cases h

theorem quiet_readClockStep (ht : s.clock ≤ t)
    (h : readClockStep s i t = some s') : Quiet k s s' := by
  rw [readClockStep] at h
  split at h
  next hi =>
    cases h
    exact .tick_goto ht (settled_of_eq hi (by simp)) _
  next => cases h

theorem cacheGetStep_eq (h : cacheGetStep k reg s i t = some s') :
    s.Settled i ∧ ∃ ph, s' = (s.tick t).goto i ph := by
  rw [cacheGetStep] at h
  split at h
  next hi _ =>
    cases h
    exact ⟨settled_of_eq hi (by simp), _, rfl⟩
  next hi _ =>
    refine ⟨settled_of_eq hi (by simp), ?_⟩
    split at h
    all_goals
      cases h
      exact ⟨_, rfl⟩
  next hi _ =>
    refine ⟨settled_of_eq hi (by simp), ?_⟩
    split at h
    all_goals
      cases h
      exact ⟨_, rfl⟩
  next hi _ =>
    refine ⟨settled_of_eq hi (by simp), ?_⟩
    split at h
    all_goals
      cases h
      exact ⟨_, rfl⟩
  next => cases h

theorem quiet_storeGetStep (h : storeGetStep k s i = some s') : Quiet k s s' := by
  rw [storeGetStep] at h
  split at h
  next hi =>
    cases h
    exact .goto s _ (settled_of_eq hi (by simp))
  next => cases h

theorem quiet_touchStep (h : touchStep k s i = some s') : Quiet k s s' := by
  rw [touchStep] at h
  split at h
  next hi =>
    cases h
    exact .touch_goto (settled_of_eq hi (by simp)) _ _ _
  next => cases h

theorem quiet_inspectStep (ht : s.clock ≤ t)
    (h : inspectStep reg s i t = some s') : Quiet k s s' := by
  rw [inspectStep] at h
  split at h
  next hi =>
    have hsettled : s.Settled i := settled_of_eq hi (by simp)
    split at h
    all_goals
      cases h
      exact .tick_goto ht hsettled _
  next => cases h

theorem quiet_joinStep (h : joinStep s i = some s') : Quiet k s s' := by
  rw [joinStep] at h
  split at h
  next p hi =>
    cases h
    have hgoto : Quiet k s (s.goto i (.waiting p)) := .goto s _ (settled_of_eq hi (by simp))
    exact { hgoto with }
  next => cases h

theorem quiet_flightReadStep (h : flightReadStep k s = some s') : Quiet k s s' := by
  rw [flightReadStep] at h
  split at h
  next =>
    cases h
    exact ⟨rfl, rfl, rfl, Int.le_refl _, fun _ _ _ _ hj => hj⟩
  next => cases h

theorem quiet_flightFinishStep (ht : s.clock ≤ t)
    (h : flightFinishStep s t = some s') : Quiet k s s' := by
  rw [flightFinishStep] at h
  split at h
  next =>
    cases h
    refine ⟨rfl, rfl, rfl, ht, ?_⟩
    intro j newVal now ttl hj
    change deliver _ (s.threads j) = _
    rw [hj]
    rfl
  next => cases h

theorem quiet_softTimeoutStep (h : softTimeoutStep reg s i = some s') : Quiet k s s' := by
  rw [softTimeoutStep] at h
  split at h
  next =>
    split at h
    next hi =>
      cases h
      exact .goto s _ (settled_of_eq hi (by simp))
    next hi =>
      cases h
      exact .goto s _ (settled_of_eq hi (by simp))
    next => cases h
  next => cases h

theorem quiet_receiveStep (h : receiveStep k reg s i d = some s') : Quiet k s s' := by
  rw [receiveStep] at h
  split at h
  next hi =>
    cases h
    exact .goto s _ (settled_of_eq hi (by simp))
  next hi =>
    cases h
    exact .touch_goto (settled_of_eq hi (by simp)) _ _ _
  next hi =>
    cases h
    exact .touch_goto (settled_of_eq hi (by simp)) _ _ _
  next hi =>
    cases h
    exact .goto s _ (settled_of_eq hi (by simp))
  next hi =>
    cases h
    exact .touch_goto (settled_of_eq hi (by simp)) _ _ _
  next => cases h

theorem quiet_slideStep (h : slideStep k reg s i d = some s') : Quiet k s s' := by
  rw [slideStep] at h
  split at h
  next hi =>
    have hsettled : s.Settled i := settled_of_eq hi (by simp)
    split at h
    · cases h
      exact .touch_goto hsettled _ _ _
    · cases h
      exact .goto s _ hsettled
  next => cases h

theorem quiet_eagerStep {j : ℕ} (h : eagerStep reg s i j = some s') : Quiet k s s' := by
  rw [eagerStep] at h
  split at h
  next hi hj =>
    have hreturned : Quiet k s (s.goto i .returned) := .goto s _ (settled_of_eq hi (by simp))
    split at h
    · cases h
      have hne : j ≠ i := by
        rintro rfl
        rw [hi] at hj
        cases hj
      have hidle : (s.goto i .returned).threads j = .idle :=
        (Function.update_of_ne hne _ _).trans hj
      exact hreturned.trans (.goto _ _ (settled_of_eq hidle (by simp)))
    · cases h
      exact hreturned
  next => cases h

theorem quiet_of_no_write {a : Action T} (hclock : ∀ t ∈ a.reading, s.clock < t)
    (hset : ∀ i t d, a ≠ .cacheSet i t d) (hput : ∀ i, a ≠ .storeSet i)
    (h : stepWith k reg s a = some s') : Quiet k s s' := by
  cases a with
  | call i r => exact quiet_callStep h
  | readClock i t =>
    exact quiet_readClockStep (Int.le_of_lt (hclock t rfl)) h
  | cacheGet i t =>
    obtain ⟨hi, ph, rfl⟩ := cacheGetStep_eq h
    exact .tick_goto (Int.le_of_lt (hclock t rfl)) hi ph
  | storeGet i => exact quiet_storeGetStep h
  | cacheSet i t d => exact absurd rfl (hset i t d)
  | storeSet i => exact absurd rfl (hput i)
  | touch i => exact quiet_touchStep h
  | inspect i t => exact quiet_inspectStep (Int.le_of_lt (hclock t rfl)) h
  | join i => exact quiet_joinStep h
  | flightRead => exact quiet_flightReadStep h
  | flightFinish t =>
    exact quiet_flightFinishStep (Int.le_of_lt (hclock t rfl)) h
  | softTimeout i => exact quiet_softTimeoutStep h
  | receive i d => exact quiet_receiveStep h
  | slide i d => exact quiet_slideStep h
  | eager i j => exact quiet_eagerStep h

/-! ## Steps that write the cache or the store -/

/-- The state after a thread has written `v` to the cache. -/
def afterWrite (k : Key) (s : System T) (i : ℕ) (t : Instant) (v : Value T)
    (ttl : Duration) (ph : Phase T) : System T :=
  ((s.tick t).onWarp fun w => { w with cache := w.cache.set t k v ttl }).goto i ph

theorem coherent_afterWrite {v : Value T} {ttl : Duration}
    (hv : s.warp.store k = some v.data ∨ (s.afterWrite k i t v ttl ph).Owed v.data) :
    (s.afterWrite k i t v ttl ph).Coherent k := by
  intro v' hv'
  have hget : (s.warp.cache.set t k v ttl).get t k = some v :=
    (Cache.get_set_self _ _ _ _ _ _).trans (Cache.live_newEntry t v ttl)
  obtain rfl : v = v' := Option.mem_unique hget hv'
  exact hv

theorem owed_afterWrite {v : Value T} {ttl : Duration}
    (hi : s.Settled i) {data : T} (h : s.Owed data) :
    (s.afterWrite k i t v ttl ph).Owed data := by
  obtain ⟨j, newVal, now, ttl', _, hj, hdata⟩ := h
  have hne : j ≠ i := fun heq => hi newVal now ttl' (heq ▸ hj)
  exact ⟨j, newVal, now, ttl', True.intro, (Function.update_of_ne hne _ _).trans hj, hdata⟩

theorem coherent_cacheSetStep (horderly : Orderly k s (.cacheSet i t d))
    (h : cacheSetStep k reg s i t d = some s') : s'.Coherent k := by
  rw [cacheSetStep] at h
  rw [Orderly] at horderly
  split at h
  next newVal now hi =>
    cases h
    exact coherent_afterWrite (.inr ⟨i, newVal, now, _, True.intro,
      Function.update_self _ _ _, rfl⟩)
  next mv ttl hi =>
    cases h
    rw [hi] at horderly
    exact coherent_afterWrite (horderly.imp id (owed_afterWrite (settled_of_eq hi (by simp))))
  next v now ttl hi =>
    cases h
    rw [hi] at horderly
    exact coherent_afterWrite (horderly.imp id (owed_afterWrite (settled_of_eq hi (by simp))))
  next => cases h

theorem coherent_storeSetStep (hkind : s.warp.storeKind ≠ .absent)
    (horderly : Orderly k s (.storeSet i)) (h : storeSetStep k s i = some s') : s'.Coherent k := by
  rw [storeSetStep] at h
  rw [Orderly] at horderly
  split at h
  next newVal now ttl hi =>
    rw [if_pos hkind] at h
    cases h
    rw [hi] at horderly
    intro v hv
    rcases horderly v hv with hdata | ⟨j, other, now', ttl', hne, hj, hdata⟩
    · left
      rw [← hdata]
      exact Function.update_self _ _ _
    · right
      exact ⟨j, other, now', ttl', True.intro, (Function.update_of_ne hne _ _).trans hj, hdata⟩
  next => cases h

theorem storeKind_cacheSetStep (h : cacheSetStep k reg s i t d = some s') :
    s'.warp.storeKind = s.warp.storeKind := by
  rw [cacheSetStep] at h
  split at h <;> cases h <;> rfl

theorem storeKind_storeSetStep (h : storeSetStep k s i = some s') :
    s'.warp.storeKind = s.warp.storeKind := by
  rw [storeSetStep] at h
  split at h
  next => split at h <;> cases h <;> rfl
  next => cases h

/-! ## Runs -/

theorem coherent_step {a : Action T}
    (hs : s.warp.storeKind ≠ .absent ∧ s.Coherent k) (horderly : Orderly k s a)
    (h : machine k s a = some s') :
    s'.warp.storeKind ≠ .absent ∧ s'.Coherent k := by
  obtain ⟨hkind, hcoherent⟩ := hs
  rw [machine] at h
  split at h
  next => cases h
  next reg _ =>
    split at h
    next hclock =>
      by_cases hset : ∃ i t d, a = .cacheSet i t d
      · obtain ⟨i, t, d, rfl⟩ := hset
        exact ⟨storeKind_cacheSetStep h ▸ hkind, coherent_cacheSetStep horderly h⟩
      · by_cases hput : ∃ i, a = .storeSet i
        · obtain ⟨i, rfl⟩ := hput
          exact ⟨storeKind_storeSetStep h ▸ hkind, coherent_storeSetStep hkind horderly h⟩
        · have hquiet : Quiet k s s' := by
            apply quiet_of_no_write hclock _ _ h
            · intro i t d heq
              exact hset ⟨i, t, d, heq⟩
            · intro i heq
              exact hput ⟨i, heq⟩
          exact ⟨hquiet.storeKind ▸ hkind, hquiet.coherent hcoherent⟩
    next => cases h

end Steps

/-- No call has begun, and an unexpired cached value is the stored one. -/
structure Initial (k : Key) (s : System T) : Prop where
  idle : ∀ i, s.threads i = .idle
  flight : s.flight = none
  hasStore : s.warp.storeKind ≠ .absent
  cached : ∀ v, s.warp.cache.get s.clock k = some v → s.warp.store k = some v.data

/-- In every run of orderly steps, whenever all calls have returned, an
unexpired cached value is the stored one. -/
theorem cached_eq_stored_of_orderly {k : Key} {s s' : System T}
    {as : List (Action T)} (hinit : s.Initial k)
    (hrun : (machine k).run s as = some s')
    (horderly : (machine k).AllSteps (Orderly k) s as)
    (hreturned : ∀ i, (s'.threads i).inCall = false) (v : Value T)
    (hv : s'.warp.cache.get s'.clock k = some v) :
    s'.warp.store k = some v.data := by
  have hinv := (machine k).run_invariant_of_allSteps
    (I := fun s => s.warp.storeKind ≠ .absent ∧ s.Coherent k)
    (fun s a s' hs ha h => coherent_step hs ha h) hrun horderly
    ⟨hinit.hasStore, fun v hv => .inl (hinit.cached v hv)⟩
  rcases hinv.2 v hv with hstored | ⟨i, newVal, now, ttl, _, hi, _⟩
  · exact hstored
  · have hcall := hreturned i
    rw [hi] at hcall
    cases hcall

/-- A Warp that stores 1 under every key and caches nothing. -/
def coldWarp : Warp ℕ :=
  { Warp.uniform (Registration.new .strongLocal 0 TTLOptions.zero) with
    store := fun _ => some 1
    storeKind := .plain }

/-- No call has begun. -/
def coldSystem : System ℕ := ⟨coldWarp, 0, none, fun _ => .idle⟩

theorem initial_coldSystem : coldSystem.Initial "k" where
  idle := fun _ => rfl
  flight := rfl
  hasStore := by decide
  cached := fun v hv => by cases hv

/-- A `Get` reads the store, a `Set` writes cache and store, and then the `Get`
fills the cache. -/
def staleFill : List (Action ℕ) :=
  [.call 0 .get, .cacheGet 0 1, .join 0, .flightRead, .call 1 (.set 2),
    .readClock 1 2, .cacheGet 1 3, .cacheSet 1 4 0, .storeSet 1, .touch 1,
    .flightFinish 5, .receive 0 0, .cacheSet 0 6 0]

/-- After it all calls have returned, 1 is cached and 2 is stored. -/
theorem incoherent_after_staleFill : ∃ s, (machine "k").run coldSystem staleFill = some s ∧
      (∀ i, (s.threads i).inCall = false) ∧
      s.warp.cache.get s.clock "k" = some (Value.written 1 5) ∧
      s.warp.store "k" = some 2 := by
  refine ⟨_, rfl, ?_, by decide, by decide⟩
  intro i
  rcases i with _ | _ | i
  · rfl
  · rfl
  · rfl

/-- A `Get` fills the cache while two `Set` calls are under way.  The first one
stores its value when the second one, which has yet to store, has cached. -/
def overlappingCalls : List (Action ℕ) :=
  [.call 0 .get, .cacheGet 0 1, .join 0, .call 1 (.set 2), .flightRead, .call 2 (.set 3),
    .flightFinish 2, .receive 0 0, .cacheSet 0 3 0, .readClock 1 4, .readClock 2 5,
    .cacheGet 1 6, .cacheSet 1 7 0, .cacheGet 2 8, .cacheSet 2 9 0, .storeSet 1,
    .storeSet 2, .touch 1, .touch 2]

theorem orderly_overlappingCalls :
    (machine "k").AllSteps (Orderly "k") coldSystem overlappingCalls := by
  iterate 8 refine .cons True.intro rfl ?_
  -- the value that the `Get` has read is still stored
  refine .cons (.inl rfl) rfl ?_
  iterate 6 refine .cons True.intro rfl ?_
  refine .cons ?_ rfl ?_
  · intro v hv
    exact .inr ⟨2, _, _, _, by decide, rfl, congrArg Value.data (Option.some.inj hv)⟩
  refine .cons ?_ rfl ?_
  · intro v hv
    exact .inl (congrArg Value.data (Option.some.inj hv))
  iterate 2 refine .cons True.intro rfl ?_
  trivial

theorem cached_eq_stored_of_overlappingCalls :
    ∃ s, (machine "k").run coldSystem overlappingCalls = some s ∧
      s.warp.cache.get s.clock "k" = some (Value.written 3 5) ∧
      s.warp.store "k" = some 3 := by
  refine ⟨_, rfl, by decide, ?_⟩
  refine cached_eq_stored_of_orderly initial_coldSystem
    (rfl : (machine "k").run coldSystem overlappingCalls = some _) orderly_overlappingCalls ?_
    (.written 3 5) (by decide)
  rintro (_ | _ | _ | i) <;> rfl

end System

end GoWarp.Core
