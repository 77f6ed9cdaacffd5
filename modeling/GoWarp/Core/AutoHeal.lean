import GoWarp.Core.Scanning

/-!
# A validator that heals while a value is written

A `Set` writes the cache first and the store after it.  A scan that reads both
in between finds the new value cached and the old one stored.  It takes that
for a mismatch, and may bring the old value back into the cache after the `Set`
has returned.

As long as no scan finds a mismatch between the two writes of the `Set`, a
cached value is the stored one once the `Set` has returned.
-/

namespace GoWarp.Core

open Support
open Function (update update_of_ne update_self)

variable {T : Type}

/-- How far a `Set` has come: its two writes are ahead of it, it has cached
`data` and has yet to store it, or both writes are done. -/
inductive Stage (T : Type) where
  | before
  | between (data : T)
  | after

namespace Phase

/-- The stage of a `Set`, if the thread is one that has been called. -/
def stage : Phase T → Option (Stage T)
  | .setCalled _ => some .before
  | .setTimed _ _ => some .before
  | .setMissed _ _ => some .before
  | .setMerged _ _ => some .before
  | .setCached newVal _ _ => some (.between newVal.data)
  | .setStored _ _ => some .after
  | .returned => some .after
  | _ => none

/-- The thread has not been called. -/
def isIdle : Phase T → Bool
  | .idle => true
  | _ => false

end Phase

namespace System

/-- What a step of the `Set` of thread `i` can do: nothing to the cache and the
store, or one of its two writes. -/
inductive SetMoves (k : Key) (i : ℕ) (s s' : System T) : Prop
  | quiet (hcache : s'.warp.cache k = s.warp.cache k)
      (hstore : s'.warp.store k = s.warp.store k) (hclock : s.clock ≤ s'.clock)
      (hstage : (s'.threads i).stage = (s.threads i).stage)
  | cached (newVal : Value T) (t : Instant) (ttl : Duration)
      (hbefore : (s.threads i).stage = some .before)
      (hcache : s'.warp.cache k = some (Cache.newEntry t newVal ttl))
      (hstore : s'.warp.store k = s.warp.store k)
      (hstage : (s'.threads i).stage = some (.between newVal.data))
  | stored (data : T) (hbetween : (s.threads i).stage = some (.between data))
      (hcache : s'.warp.cache k = s.warp.cache k)
      (hstore : s'.warp.store k = some data) (hclock : s.clock ≤ s'.clock)
      (hstage : (s'.threads i).stage = some .after)

/-- There is a store, and the only thread is `i`, a `Set`. -/
structure SingleSet (i : ℕ) (s : System T) : Prop where
  hasStore : s.warp.storeKind ≠ .absent
  others : ∀ i', i' ≠ i → s.threads i' = .idle
  isSet : (s.threads i).stage.isSome = true

section SetMoves

variable {k : Key} {reg : Registration} {i i' : ℕ} {s s' : System T}

theorem threads_goto (s : System T) (i : ℕ) (ph : Phase T) : (s.goto i ph).threads i = ph :=
  update_self _ _ _

namespace SingleSet

theorem eq_of_not_idle (h : s.SingleSet i) {ph : Phase T}
    (hi' : s.threads i' = ph) (hph : ph.isIdle = false) : i' = i := by
  by_contra hne
  rw [← hi', h.others i' hne] at hph
  cases hph

theorem goto (h : s.SingleSet i) (hkind : s'.warp.storeKind = s.warp.storeKind)
    (hthreads : s'.threads = s.threads) {ph : Phase T}
    (hph : ph.stage.isSome = true) : (s'.goto i ph).SingleSet i where
  hasStore := fun habsent => h.hasStore (hkind.symm.trans habsent)
  others := fun i' hne => by
    rw [System.goto, hthreads]
    exact (update_of_ne hne _ _).trans (h.others i' hne)
  isSet := (congrArg (fun ph => ph.stage.isSome) (threads_goto s' i ph)).trans hph

theorem moves_quiet (h : s.SingleSet i) {ph ph' : Phase T}
    (hi : s.threads i = ph) {t : Instant} (ht : s.clock ≤ t) (hstage : ph'.stage = ph.stage) :
    SetMoves k i s ((s.tick t).goto i ph') ∧ ((s.tick t).goto i ph').SingleSet i := by
  have heq : ph'.stage = (s.threads i).stage := hstage.trans (hi ▸ rfl)
  constructor
  · refine .quiet rfl rfl ht ?_
    rw [threads_goto, heq]
  · have hph : ph'.stage.isSome = true := by
      rw [heq]
      exact h.isSet
    have hkind : (s.tick t).warp.storeKind = s.warp.storeKind := rfl
    exact h.goto hkind rfl hph

end SingleSet

variable (hs : s.SingleSet i)
include hs

theorem setMoves_cacheGetStep {t : Instant}
    (ht : s.clock ≤ t) (h : cacheGetStep k reg s i' t = some s') :
    SetMoves k i s s' ∧ s'.SingleSet i := by
  rw [cacheGetStep] at h
  split at h
  next hi _ =>
    obtain rfl := hs.eq_of_not_idle hi rfl
    cases h
    apply hs.moves_quiet hi ht
    rfl
  next hi _ =>
    obtain rfl := hs.eq_of_not_idle hi rfl
    split at h
    · cases h
      apply hs.moves_quiet hi ht
      rfl
    · cases h
      apply hs.moves_quiet hi ht
      rfl
  next hi _ =>
    obtain rfl := hs.eq_of_not_idle hi rfl
    cases hi ▸ hs.isSet
  next hi _ =>
    obtain rfl := hs.eq_of_not_idle hi rfl
    cases hi ▸ hs.isSet
  next => cases h

theorem setMoves_cacheSetStep {t : Instant} {d : Duration}
    (h : cacheSetStep k reg s i' t d = some s') :
    SetMoves k i s s' ∧ s'.SingleSet i := by
  rw [cacheSetStep] at h
  split at h
  next newVal now hi =>
    obtain rfl := hs.eq_of_not_idle hi rfl
    cases h
    constructor
    · refine .cached newVal t (cacheTTL reg (chosenTTL reg d reg.ttl)) ?_ ?_
        rfl ?_
      · rw [hi]
        rfl
      · exact update_self _ _ _
      · rw [threads_goto]
        rfl
    · apply hs.goto
      all_goals rfl
  next hi =>
    obtain rfl := hs.eq_of_not_idle hi rfl
    cases hi ▸ hs.isSet
  next hi =>
    obtain rfl := hs.eq_of_not_idle hi rfl
    cases hi ▸ hs.isSet
  next => cases h

theorem setMoves_storeSetStep (h : storeSetStep k s i' = some s') :
    SetMoves k i s s' ∧ s'.SingleSet i := by
  rw [storeSetStep] at h
  split at h
  next newVal now ttl hi =>
    obtain rfl := hs.eq_of_not_idle hi rfl
    rw [if_pos hs.hasStore] at h
    cases h
    constructor
    · refine .stored newVal.data ?_ rfl ?_ (Int.le_refl _) ?_
      · rw [hi]
        rfl
      · exact update_self _ _ _
      · rw [threads_goto]
        rfl
    · apply hs.goto
      all_goals rfl
  next => cases h

theorem setMoves_of_step {a : Action T} (hset : a.ofSet = true) (h : writers k s a = some s') :
    SetMoves k i s s' ∧ s'.SingleSet i := by
  rw [writers] at h
  split at h
  next => cases h
  next reg hreg =>
    obtain ⟨hclock, h⟩ := Option.ite_none_right_eq_some.mp h
    cases a with
    | readClock i' t =>
      rw [stepWith, readClockStep] at h
      split at h
      next hi =>
        obtain rfl := hs.eq_of_not_idle hi rfl
        cases h
        apply hs.moves_quiet hi (hclock t rfl)
        rfl
      next => cases h
    | cacheGet i' t => exact setMoves_cacheGetStep hs (hclock t rfl) h
    | storeGet i' =>
      rw [stepWith, storeGetStep] at h
      split at h
      next hi =>
        obtain rfl := hs.eq_of_not_idle hi rfl
        cases h
        apply hs.moves_quiet hi (Int.le_refl s.clock)
        rfl
      next => cases h
    | cacheSet i' t d => exact setMoves_cacheSetStep hs h
    | storeSet i' => exact setMoves_storeSetStep hs h
    | touch i' =>
      rw [stepWith, touchStep] at h
      split at h
      next hi =>
        obtain rfl := hs.eq_of_not_idle hi rfl
        cases h
        constructor
        · refine .quiet rfl rfl (Int.le_refl s.clock) ?_
          rw [threads_goto, hi]
          rfl
        · apply hs.goto
          all_goals rfl
      next => cases h
    | _ => cases hset

end SetMoves

end System

namespace Healing

/-- What a step of a scan can do to the system and the scans. -/
inductive ScanMoves (a : ScanAction) (s s' : Healing T) : Prop
  /-- a scan begins, ends, or turns to its next key -/
  | turned (j : ℕ) (keys : List Key) (t : Instant) (ht : s.system.clock ≤ t)
      (hsystem : s'.system = s.system.tick t)
      (hscans : s'.scans = update s.scans j (.ahead keys))
  | looked (j : ℕ) (k : Key) (v : Value T) (keys : List Key) (t : Instant)
      (ht : s.system.clock ≤ t) (hget : s.system.warp.cache.get t k = some v)
      (hsystem : s'.system = s.system.tick t)
      (hscans : s'.scans = update s.scans j (.cached k v.data keys))
  | found (j : ℕ) (k : Key) (cv sv : T) (keys : List Key)
      (ha : a = .storeGet j) (hj : s.scans j = .cached k cv keys)
      (hstore : s.system.warp.store k = some sv)
      (hdiff : s.validator.differing cv sv = some sv)
      (hsystem : s'.system = s.system)
      (hscans : s'.scans = update s.scans j (.healing k sv keys))
  | prepared (j : ℕ) (k : Key) (sv : T) (keys : List Key) (t : Instant)
      (ttl : Duration) (ht : s.system.clock ≤ t)
      (hj : s.scans j = .healing k sv keys)
      (hsystem : s'.system = (s.system.tick t).onWarp fun w => w.touch k ttl t)
      (hscans : s'.scans = update s.scans j (.writing k (Value.written sv t) ttl keys))
  | wrote (j : ℕ) (k : Key) (mv : Value T) (ttl : Duration) (keys : List Key)
      (t : Instant) (ht : s.system.clock ≤ t)
      (hj : s.scans j = .writing k mv ttl keys)
      (hsystem : s'.system = (s.system.tick t).onWarp fun w =>
        { w with cache := w.cache.set t k mv ttl })
      (hscans : s'.scans = update s.scans j (.ahead keys))

theorem scanMoves_of_step {s s' : Healing T} {a : ScanAction}
    (hclock : ∀ t ∈ a.reading, s.system.clock ≤ t)
    (h : s.scanStep a = some s') : ScanMoves a s s' := by
  cases a with
  | list j keys =>
    rw [scanStep, listStep] at h
    split at h
    next =>
      obtain ⟨_, h⟩ := Option.ite_none_right_eq_some.mp h
      cases h
      exact .turned j keys s.system.clock (Int.le_refl _) rfl rfl
    next => cases h
  | cancel j =>
    rw [scanStep, cancelStep] at h
    split at h
    next =>
      cases h
      exact .turned j [] s.system.clock (Int.le_refl _) rfl rfl
    next => cases h
  | cacheGet j t =>
    rw [scanStep, cacheGetStep] at h
    split at h
    next k keys hj =>
      cases h
      cases hget : s.system.warp.cache.get t k with
      | none => exact .turned j keys t (hclock t rfl) rfl rfl
      | some v => exact .looked j k v keys t (hclock t rfl) hget rfl rfl
    next => cases h
  | storeGet j =>
    rw [scanStep, storeGetStep] at h
    split at h
    next k cv keys hj =>
      split at h
      next =>
        cases h
        exact .turned j keys s.system.clock (Int.le_refl _) rfl rfl
      next sv hdiff =>
        obtain ⟨data, hstore, hdiff⟩ := Option.bind_eq_some_iff.mp hdiff
        obtain rfl := s.validator.eq_of_differing hdiff
        cases h
        split
        · exact .found j k cv sv keys rfl hj hstore hdiff rfl rfl
        · exact .turned j keys s.system.clock (Int.le_refl _) rfl rfl
    next => cases h
  | prepare j t d =>
    rw [scanStep, prepareStep] at h
    split at h
    next k sv keys hj =>
      cases h
      exact .prepared j k sv keys t _ (hclock t rfl) hj rfl rfl
    next => cases h
  | cacheSet j t =>
    rw [scanStep, cacheSetStep] at h
    split at h
    next k mv ttl keys hj =>
      cases h
      exact .wrote j k mv ttl keys t (hclock t rfl) hj rfl rfl
    next => cases h

/-! ## The invariant -/

/-- A cached value of `k` is the one that the `Set` is about to store, or else
the stored one. -/
def Expected (k : Key) (i : ℕ) (s : System T) (data : T) : Prop :=
  match (s.threads i).stage with
  | some (.between new) => data = new
  | _ => s.warp.store k = some data

/-- The `Set` has written cache and store, and `data` is stored. -/
def Final (k : Key) (i : ℕ) (s : System T) (data : T) : Prop :=
  (s.threads i).stage = some .after ∧ s.warp.store k = some data

/-- What a scan holds at `k`: before both writes of the `Set` are done, a
cached value that is stored or about to be; and a stored value to heal with
only after that. -/
def Holds (k : Key) (i : ℕ) (s : System T) : ScanPhase T → Prop
  | .cached k' cv _ => k' = k → (s.threads i).stage = some .after ∨
      (s.threads i).stage = some (.between cv) ∨ s.warp.store k = some cv
  | .healing k' sv _ => k' = k → Final k i s sv
  | .writing k' mv _ _ => k' = k → Final k i s mv.data
  | _ => True

/-- The invariant of a `Set` and scans that find no mismatch between its
writes. -/
structure Inv (k : Key) (i : ℕ) (s : Healing T) : Prop where
  singleSet : s.system.SingleSet i
  cached : ∀ v, s.system.warp.cache.get s.system.clock k = some v → Expected k i s.system v.data
  scans : ∀ j, Holds k i s.system (s.scans j)

/-- No scan finds a mismatch at `k` between the two writes of the `Set`. -/
def timely (k : Key) (i : ℕ) (s : Healing T) : HealAction T → Bool
  | .scan (.storeGet j) =>
    match s.scans j, (s.system.threads i).stage with
    | .cached k' cv _, some (.between _) =>
      k' != k || ((s.system.warp.store k).bind (s.validator.differing cv)).isNone
    | _, _ => true
  | _ => true

section Invariant

variable {k : Key} {i : ℕ} {s s' : Healing T}

theorem Inv.expected (h : s.Inv k i) {t : Instant} (ht : s.system.clock ≤ t)
    {v : Value T} (hv : s.system.warp.cache.get t k = some v) :
    Expected k i s.system v.data :=
  h.cached v (Cache.get_of_le ht hv)

theorem expected_congr {sys sys' : System T}
    (hstage : (sys'.threads i).stage = (sys.threads i).stage)
    (hstore : sys'.warp.store k = sys.warp.store k) (data : T) :
    Expected k i sys' data = Expected k i sys data := by
  rw [Expected, Expected, hstage, hstore]

theorem holds_congr {sys sys' : System T} (hstage : (sys'.threads i).stage = (sys.threads i).stage)
    (hstore : sys'.warp.store k = sys.warp.store k) (ph : ScanPhase T) :
    Holds k i sys' ph = Holds k i sys ph := by
  cases ph with
  | cached k' cv keys => rw [Holds, Holds, hstage, hstore]
  | healing k' sv keys | writing k' mv ttl keys =>
    rw [Holds, Holds, Final, Final, hstage, hstore]
  | _ => rfl

theorem Holds.of_ne_after {sys : System T} {ph : ScanPhase T}
    (h : Holds k i sys ph) (hne : (sys.threads i).stage ≠ some .after) {sys' : System T}
    (hread : ∀ cv, (sys.threads i).stage = some (.between cv) ∨
      sys.warp.store k = some cv → (sys'.threads i).stage = some .after ∨
        (sys'.threads i).stage = some (.between cv) ∨ sys'.warp.store k = some cv) :
    Holds k i sys' ph := by
  cases ph with
  | cached k' cv keys => exact fun hk => hread cv ((h hk).resolve_left hne)
  | healing k' sv keys | writing k' mv ttl keys =>
    exact fun hk => absurd (h hk).1 hne
  | idle | ahead keys => trivial

theorem Inv.set_step (h : s.Inv k i) {sys : System T}
    (hmoves : s.system.SetMoves k i sys) (hsingle : sys.SingleSet i) :
    Inv k i { s with system := sys } := by
  cases hmoves with
  | quiet hcache hstore hclock hstage =>
    constructor
    · exact hsingle
    · intro v hv
      rw [Cache.get, hcache] at hv
      exact (expected_congr hstage hstore v.data).mpr (h.expected hclock hv)
    · intro j
      exact (holds_congr hstage hstore _).mpr (h.scans j)
  | cached newVal t ttl hbefore hcache hstore hstage =>
    constructor
    · exact hsingle
    · intro v hv
      rw [Cache.get, hcache] at hv
      rw [Expected, hstage]
      exact congrArg Value.data (CacheEntry.value_of_live hv).symm
    · intro j
      apply (h.scans j).of_ne_after
      · rw [hbefore]
        intro hafter
        cases hafter
      · rintro cv (hbetween | hstored)
        · rw [hbefore] at hbetween
          cases hbetween
        · exact .inr (.inr (hstore.trans hstored))
  | stored data hbetween hcache hstore hclock hstage =>
    constructor
    · exact hsingle
    · intro v hv
      rw [Cache.get, hcache] at hv
      have hexpected := h.expected hclock hv
      rw [Expected, hbetween] at hexpected
      rw [Expected, hstage]
      exact hstore.trans (congrArg some hexpected.symm)
    · intro j
      apply (h.scans j).of_ne_after
      · rw [hbetween]
        intro hafter
        cases hafter
      · exact fun _ _ => .inl hstage

structure Keeps (sys sys' : System T) : Prop where
  store : sys'.warp.store = sys.warp.store
  storeKind : sys'.warp.storeKind = sys.warp.storeKind
  threads : sys'.threads = sys.threads

theorem Inv.scan_step (h : s.Inv k i) (hkeeps : Keeps s.system s'.system) {j : ℕ} {ph : ScanPhase T}
    (hscans : s'.scans = update s.scans j ph)
    (hcached : ∀ v, s'.system.warp.cache.get s'.system.clock k = some v →
      Expected k i s.system v.data) (hph : Holds k i s.system ph) : s'.Inv k i := by
  have hstage : (s'.system.threads i).stage = (s.system.threads i).stage := by rw [hkeeps.threads]
  have hstored : s'.system.warp.store k = s.system.warp.store k := by rw [hkeeps.store]
  constructor
  · exact ⟨hkeeps.storeKind ▸ h.singleSet.hasStore,
      hkeeps.threads ▸ h.singleSet.others, hkeeps.threads ▸ h.singleSet.isSet⟩
  · intro v hv
    exact (expected_congr hstage hstored v.data).mpr (hcached v hv)
  · intro j'
    rw [holds_congr hstage hstored, hscans]
    by_cases hj : j' = j
    · rw [hj, update_self]
      exact hph
    · rw [update_of_ne hj]
      exact h.scans j'

theorem Inv.scan_moves (h : s.Inv k i) {a : ScanAction}
    (htimely : timely k i s (.scan a) = true) (hmoves : ScanMoves a s s') :
    s'.Inv k i := by
  cases hmoves with
  | turned j keys t ht hsystem hscans =>
    apply h.scan_step (hsystem ▸ ⟨rfl, rfl, rfl⟩) hscans
    · rw [hsystem]
      exact fun v hv => h.expected ht hv
    · trivial
  | looked j k' v keys t ht hget hsystem hscans =>
    apply h.scan_step (hsystem ▸ ⟨rfl, rfl, rfl⟩) hscans
    · rw [hsystem]
      exact fun v hv => h.expected ht hv
    · rintro rfl
      have hexpected := h.expected ht hget
      rw [Expected] at hexpected
      split at hexpected
      next data hstage => exact .inr (.inl (hexpected ▸ hstage))
      next => exact .inr (.inr hexpected)
  | found j k' cv sv keys ha hj hstore hdiff hsystem hscans =>
    apply h.scan_step (hsystem ▸ ⟨rfl, rfl, rfl⟩) hscans
    · rw [hsystem]
      exact h.cached
    · rintro rfl
      have hheld := h.scans j
      rw [hj] at hheld
      -- a cached value that is stored is no mismatch
      rcases hheld rfl with hafter | hbetween | hstored
      · exact ⟨hafter, hstore⟩
      · rw [ha, timely, hj, hbetween, hstore] at htimely
        simp [hdiff] at htimely
      · obtain rfl := Option.mem_unique hstore hstored
        rw [s.validator.differing_self] at hdiff
        cases hdiff
  | prepared j k' sv keys t ttl ht hj hsystem hscans =>
    apply h.scan_step (hsystem ▸ ⟨rfl, rfl, rfl⟩) hscans
    · rw [hsystem]
      exact fun v hv => h.expected ht hv
    · have hheld := h.scans j
      rw [hj] at hheld
      exact hheld
  | wrote j k' mv ttl keys t ht hj hsystem hscans =>
    apply h.scan_step (hsystem ▸ ⟨rfl, rfl, rfl⟩) hscans
    · intro v hv
      rw [hsystem] at hv
      by_cases hk : k = k'
      · subst hk
        have hheld := h.scans j
        rw [hj] at hheld
        obtain ⟨hafter, hstored⟩ := hheld rfl
        rw [Expected, hafter, hstored]
        have hlive := (Cache.get_set_self _ _ _ _ _ _).symm.trans hv
        exact congrArg (some ·.data) (CacheEntry.value_of_live hlive)
      · apply h.expected ht
        rw [← hv]
        exact (Cache.get_set_of_ne _ _ _ hk _ _).symm
    · trivial

theorem Inv.step (h : s.Inv k i) {a : HealAction T}
    (htimely : timely k i s a = true) (hstep : machine k s a = some s') :
    s'.Inv k i := by
  cases a with
  | set a =>
    obtain ⟨hset, hstep⟩ := Option.ite_none_right_eq_some.mp hstep
    obtain ⟨sys, hsys, rfl⟩ := Option.map_eq_some_iff.mp hstep
    obtain ⟨hmoves, hsingle⟩ := System.setMoves_of_step h.singleSet hset hsys
    exact h.set_step hmoves hsingle
  | scan a =>
    obtain ⟨hclock, hstep⟩ := Option.ite_none_right_eq_some.mp hstep
    exact h.scan_moves htimely (scanMoves_of_step hclock hstep)

end Invariant

/-! ## Agreement of cache and store -/

/-- A `Set` of a key in `ModeStrongLocal` has been called, no other thread has,
no scan has begun, there is a store, and an unexpired cached value is the stored
one. -/
structure Start (k : Key) (i : ℕ) (s : Healing T) : Prop where
  hasStore : s.system.warp.storeKind ≠ .absent
  mode : ∃ reg, s.system.warp.regs k = some reg ∧ reg.mode = .strongLocal
  called : ∃ value, s.system.threads i = .setCalled value
  others : ∀ i', i' ≠ i → s.system.threads i' = .idle
  scans : ∀ j, s.scans j = .idle
  agree : ∀ v, s.system.warp.cache.get s.system.clock k = some v →
    s.system.warp.store k = some v.data

theorem Start.inv {k : Key} {i : ℕ} {s : Healing T} (h : s.Start k i) : s.Inv k i := by
  obtain ⟨value, hi⟩ := h.called
  constructor
  · exact ⟨h.hasStore, h.others, by rw [hi]; rfl⟩
  · intro v hv
    rw [Expected, hi]
    exact h.agree v hv
  · intro j
    rw [h.scans j]
    trivial

/-- In every run of a `Set` and of scans that find no mismatch between the two
writes of the `Set`, an unexpired cached value is the stored one once the `Set`
has returned. -/
theorem cached_eq_stored_of_timely {k : Key} {i : ℕ} {s s' : Healing T}
    {as : List (HealAction T)} (hstart : s.Start k i)
    (hrun : (machine k).run s as = some s')
    (htimely : (machine k).AllSteps (fun s a => timely k i s a = true) s as)
    (hreturned : s'.system.threads i = .returned) (v : Value T)
    (hv : s'.system.warp.cache.get s'.system.clock k = some v) :
    s'.system.warp.store k = some v.data := by
  have hinv := (machine k).run_invariant_of_allSteps
    (I := fun s => s.Inv k i) (fun s a s' hs ha h => hs.step ha h) hrun htimely
    hstart.inv
  have hexpected := hinv.cached v hv
  rw [Expected, hreturned] at hexpected
  exact hexpected

/-- `false` is stored under one key and cached under every key. -/
def falseWarp : Warp Bool :=
  { Warp.uniform (Registration.new .strongLocal 0 TTLOptions.zero) with
    cache := fun _ => some ⟨Value.written false 0, none⟩
    store := fun k => if k = "k" then some false else none
    storeKind := .plain }

/-- An injective digest. -/
def boolDigest (b : Bool) : Option String := some (if b then "1" else "0")

/-- A `Set` of `true` has been called. -/
def trueCalled : Healing Bool where
  system := ⟨falseWarp, 0, none, fun i => if i = 0 then .setCalled true else .idle⟩
  validator := ⟨.autoHeal, boolDigest, 0⟩
  scans := fun _ => .idle

theorem start_trueCalled : trueCalled.Start "k" 0 where
  hasStore := by decide
  mode := ⟨_, rfl, rfl⟩
  called := ⟨true, rfl⟩
  others := fun i' hne => if_neg hne
  scans := fun _ => rfl
  agree := fun v hv => by
    cases hv
    rfl

/-- A scan that finds the cached value before the `Set`, and the stored one
after it. -/
def lateScan : List (HealAction Bool) :=
  [.scan (.list 0 ["k"]), .scan (.cacheGet 0 1), .set (.readClock 0 2),
    .set (.cacheGet 0 3), .set (.cacheSet 0 4 0), .set (.storeSet 0),
    .scan (.storeGet 0), .set (.touch 0), .scan (.prepare 0 5 0),
    .scan (.cacheSet 0 6)]

/-- The scan takes the new value for a mismatch, and heals with the same. -/
theorem cached_eq_stored_of_lateScan : ∃ s, (machine "k").run trueCalled lateScan = some s ∧
      s.system.threads 0 = .returned ∧ s.validator.mismatches = 1 ∧
      s.system.warp.cache.get s.system.clock "k" = some (Value.written true 5) ∧
      s.system.warp.store "k" = some true := by
  refine ⟨_, rfl, rfl, rfl, by decide, ?_⟩
  exact cached_eq_stored_of_timely start_trueCalled
    (rfl : (machine "k").run trueCalled lateScan = some _) (by decide) rfl
    (.written true 5) (by decide)

/-- A scan reads the cache and the store between the two writes of the `Set`,
and heals after the `Set` has returned. -/
def racingScan : List (HealAction Bool) :=
  [.set (.readClock 0 1), .set (.cacheGet 0 2), .scan (.list 0 ["k"]),
    .set (.cacheSet 0 3 0), .scan (.cacheGet 0 4), .scan (.storeGet 0),
    .set (.storeSet 0), .set (.touch 0), .scan (.prepare 0 5 0),
    .scan (.cacheSet 0 6)]

/-- The scan caches `false` again, while `true` is stored. -/
theorem stale_after_racingScan : trueCalled.Start "k" 0 ∧ Function.Injective boolDigest ∧
      ∃ s, (machine "k").run trueCalled racingScan = some s ∧
        s.system.threads 0 = .returned ∧ (∀ j, s.scans j = .idle ∨ s.scans j = .ahead []) ∧
        s.system.warp.cache.get s.system.clock "k" = some (Value.written false 5) ∧
        s.system.warp.store "k" = some true := by
  refine ⟨start_trueCalled, by decide, _, rfl, rfl, ?_, by decide, by decide⟩
  intro j
  rcases j with _ | j
  · exact .inr rfl
  · exact .inl rfl

end Healing

end GoWarp.Core
