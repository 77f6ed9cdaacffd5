import GoWarp.Core.Contest

/-!
# Compare-and-swaps that exclude each other

Several transactions can find the expected value before any of them replaces
it.  A run in which all commits have returned has at most one success, whose
value is then cached and stored, exactly if no comparison of the run succeeds
between another's comparison and its cache write, and the merge of each new
value over the expected one is the new value.
-/

namespace GoWarp.Core

open Support
open Function (update update_of_ne update_self forall_update_iff)

variable {T : Type}

namespace SwapPhase

/-- The commit is between its comparison and its cache write. -/
def inWindow : SwapPhase T → Bool
  | .matched _ _ => true
  | _ => false

/-- The commit has written the cache. -/
def won : SwapPhase T → Bool
  | .cached _ _ _ => true
  | .written _ _ _ => true
  | .touched _ => true
  | .returned none => true
  | _ => false

/-- The commit has written the store. -/
def stored (kind : StoreKind) : SwapPhase T → Bool
  | .written _ _ _ => kind == .plain
  | .touched _ => kind == .plain
  | .returned none => kind != .absent
  | _ => false

/-- The value that the commit writes. -/
def carried : SwapPhase T → Option T
  | .matched newVal _ => some newVal.data
  | .cached newVal _ _ => some newVal.data
  | .written newVal _ _ => some newVal.data
  | .touched newVal => some newVal.data
  | _ => none

/-- The comparison has succeeded. -/
def passed (ph : SwapPhase T) : Bool := ph.inWindow || ph.won

/-- The commit has returned, or was never called. -/
def ended : SwapPhase T → Bool
  | .idle => true
  | .returned _ => true
  | _ => false

variable {ph : SwapPhase T}

theorem not_won_of_inWindow (h : ph.inWindow = true) : ¬ph.won = true := by
  cases ph with
  | matched newVal now => exact Bool.false_ne_true
  | _ => cases h

theorem returned_of_passed (hended : ph.ended = true)
    (hpassed : ph.passed = true) : ph = .returned none := by
  cases ph with
  | returned err =>
    cases err with
    | none => rfl
    | some e => cases hpassed
  | idle => cases hpassed
  | _ => cases hended

theorem carried_of_not_passed (h : ph.passed = false) : ph.carried = none := by
  cases ph <;> first | rfl | cases h

theorem won_of_stored {kind : StoreKind} (h : ph.stored kind = true) : ph.won = true := by
  cases ph with
  | returned err => cases err <;> first | rfl | cases h
  | _ => first | rfl | cases h

end SwapPhase

namespace Contest

/-- The data cached for a key, live or not. -/
def cachedData (s : Contest T) (k : Key) : Option T :=
  (s.warp.cache k).map fun entry => entry.value.data

/-- At most one commit has returned nil, and then its value is cached and
stored. -/
def Excludes (k : Key) (new : ℕ → T) (s : Contest T) : Prop :=
  (∀ i j, s.threads i = .returned none → s.threads j = .returned none → i = j) ∧
    ∀ i, s.threads i = .returned none → s.cachedData k = some (new i) ∧
        (s.warp.storeKind ≠ .absent → s.warp.store k = some (new i))

/-- A comparison succeeds while no commit is between its comparison and its
cache write, and what it writes is the new value of its transaction. -/
def Exclusive (k : Key) (expected : T) (new : ℕ → T) (s : Contest T) : SwapAction → Prop
  | .compare i t =>
    ∀ now old, s.threads i = .timed now → s.warp.cache.get t k = some old → old.data = expected →
        (∀ j, (s.threads j).inWindow = false) ∧ (s.warp.merges.mergeOver k (some old)
            (Value.written (new i) now)).data = new i
  | _ => True

/-- How far the contest has got: the transaction whose comparison has succeeded
last, and whether it has written the cache. -/
inductive Standing where
  | undecided
  | pending (i : ℕ)
  | decided (i : ℕ)

/-- The data that is cached. -/
def Standing.value (expected : T) (new : ℕ → T) : Standing → T
  | .decided i => new i
  | _ => expected

/-- The phase `ph` of the transaction `i` goes with the standing of the contest
and with what is stored. -/
structure Fits (new : ℕ → T) (kind : StoreKind) (standing : Standing)
    (stored : Option T) (i : ℕ) (ph : SwapPhase T) : Prop where
  window : ph.inWindow = true → standing = .pending i
  won : ph.won = true → standing = .decided i
  carried : ∀ data, ph.carried = some data → data = new i
  stored : ph.stored kind = true → stored = some (new i)

namespace Fits

variable {new : ℕ → T} {kind : StoreKind} {standing : Standing}
  {stored : Option T} {i : ℕ} {ph : SwapPhase T}

theorem of_not_passed (hph : ph.passed = false) (standing : Standing) (stored : Option T) :
    Fits new kind standing stored i ph := by
  obtain ⟨hwindow, hwon⟩ := Bool.or_eq_false_iff.mp hph
  refine ⟨?_, ?_, ?_, ?_⟩
  · intro h
    rw [hwindow] at h
    cases h
  · intro h
    rw [hwon] at h
    cases h
  · intro data h
    rw [SwapPhase.carried_of_not_passed hph] at h
    cases h
  · intro h
    rw [SwapPhase.won_of_stored h] at hwon
    cases hwon

theorem of_won (hwindow : ph.inWindow = false)
    (hcarried : ∀ data, ph.carried = some data → data = new i)
    (hstored : ph.stored kind = true → stored = some (new i)) :
    Fits new kind (.decided i) stored i ph := by
  refine ⟨?_, fun _ => rfl, hcarried, hstored⟩
  intro h
  rw [hwindow] at h
  cases h

end Fits

/-- The cached data and all transactions go with the standing. -/
structure Decided (k : Key) (expected : T) (new : ℕ → T) (s : Contest T)
    (standing : Standing) : Prop where
  cached : s.cachedData k = some (standing.value expected new)
  fits : ∀ i, Fits new s.warp.storeKind standing (s.warp.store k) i (s.threads i)

namespace Decided

variable {k : Key} {expected : T} {new : ℕ → T} {s s' : Contest T}
  {standing standing' : Standing} {i : ℕ} {ph : SwapPhase T}

theorem moves (hthreads : s'.threads = update s.threads i ph)
    (hkind : s'.warp.storeKind = s.warp.storeKind)
    (hcached : s'.cachedData k = some (standing'.value expected new))
    (hself : Fits new s.warp.storeKind standing' (s'.warp.store k) i ph)
    (hothers : ∀ j, j ≠ i → Fits new s.warp.storeKind standing' (s'.warp.store k) j (s.threads j)) :
    Decided k expected new s' standing' := by
  refine ⟨hcached, ?_⟩
  rw [hthreads, hkind]
  exact (forall_update_iff _ _).mpr ⟨hself, hothers⟩

section

variable (h : Decided k expected new s standing)
include h

theorem movesIdly (hthreads : s'.threads = update s.threads i ph)
    (hwarp : s'.warp = s.warp) (hph : ph.passed = false) :
    Decided k expected new s' standing := by
  refine moves hthreads (by rw [hwarp]) ?_ (.of_not_passed hph _ _) ?_
  · rw [cachedData, hwarp]
    exact h.cached
  · rw [hwarp]
    exact fun j _ => h.fits j

theorem not_passed_of_ne (hstanding : standing = .pending i ∨ standing = .decided i) {j : ℕ}
    (hj : j ≠ i) : (s.threads j).passed = false := by
  rw [SwapPhase.passed, Bool.or_eq_false_iff, ← Bool.not_eq_true, ← Bool.not_eq_true]
  constructor
  · intro hwindow
    rw [(h.fits j).window hwindow] at hstanding
    rcases hstanding with heq | heq
    · exact hj (Standing.pending.inj heq)
    · cases heq
  · intro hwon
    rw [(h.fits j).won hwon] at hstanding
    rcases hstanding with heq | heq
    · cases heq
    · exact hj (Standing.decided.inj heq)

variable {t : Instant}

theorem value_of_get {old : Value T} (hget : s.warp.cache.get t k = some old)
    (hold : old.data = expected) : standing.value expected new = expected := by
  obtain ⟨entry, hentry, hlive⟩ := Option.bind_eq_some_iff.mp hget
  obtain rfl := CacheEntry.value_of_live hlive
  have hcached := h.cached
  rw [cachedData, hentry, Option.map_some, hold] at hcached
  exact (Option.some.inj hcached).symm

theorem compareStep [DecidableEq T] (hnew : ∀ i, new i ≠ expected)
    (hexclusive : Exclusive k expected new s (.compare i t))
    (hstep : compareStep k expected new s i t = some s') :
    ∃ standing, Decided k expected new s' standing := by
  obtain ⟨now, hi, ⟨old, hget, hold, rfl⟩ | ⟨_, rfl⟩⟩ := compareStep_eq_some hstep
  swap
  · exact ⟨standing, h.movesIdly rfl rfl rfl⟩
  obtain ⟨hwindow, hdata⟩ := hexclusive now old hi hget hold
  have hvalue := h.value_of_get hget hold
  refine ⟨.pending i, moves rfl rfl ?_ ?_ fun j _ => ?_⟩
  · exact h.cached.trans (congrArg some hvalue)
  · refine ⟨fun _ => rfl, (absurd · Bool.false_ne_true), ?_,
      (absurd · Bool.false_ne_true)⟩
    intro data hcarried
    exact (Option.some.inj hcarried).symm.trans hdata
  · have hnot : (s.threads j).won = false := by
      rw [← Bool.not_eq_true]
      intro hwon
      rw [(h.fits j).won hwon] at hvalue
      exact hnew j hvalue
    exact .of_not_passed (Bool.or_eq_false_iff.mpr ⟨hwindow j, hnot⟩) _ _

theorem cacheSetStep {reg : Registration} {d : Duration}
    (hstep : cacheSetStep k reg s i t d = some s') :
    ∃ standing, Decided k expected new s' standing := by
  obtain ⟨newVal, now, ttl, hi, rfl⟩ := cacheSetStep_eq_some hstep
  have hfits := h.fits i
  rw [hi] at hfits
  have hdata : newVal.data = new i := hfits.carried _ rfl
  refine ⟨.decided i, moves rfl rfl ?_ ?_ fun j hj => ?_⟩
  · change (update s.warp.cache k _ k).map _ = _
    rw [update_self]
    exact congrArg some hdata
  · exact .of_won rfl hfits.carried (absurd · Bool.false_ne_true)
  · exact .of_not_passed (h.not_passed_of_ne (.inl (hfits.window rfl)) hj) _ _

theorem movesAsWinner (hi : (s.threads i).won = true)
    (hthreads : s'.threads = update s.threads i ph) (hkind : s'.warp.storeKind = s.warp.storeKind)
    (hcache : s'.warp.cache k = s.warp.cache k) (hwindow : ph.inWindow = false)
    (hcarried : ∀ data, ph.carried = some data → data = new i)
    (hstored : ph.stored s.warp.storeKind = true → s'.warp.store k = some (new i)) :
    ∃ standing, Decided k expected new s' standing := by
  obtain rfl := (h.fits i).won hi
  refine ⟨.decided i, moves hthreads hkind ?_ (.of_won hwindow hcarried hstored) fun j hj => ?_⟩
  · rw [cachedData, hcache]
    exact h.cached
  · exact .of_not_passed (h.not_passed_of_ne (.inr rfl) hj) _ _

theorem writeStep (hstep : writeStep k s i = some s') :
    ∃ standing, Decided k expected new s' standing := by
  obtain ⟨newVal, now, ttl, hi, hwrite⟩ := writeStep_eq_some hstep
  have hwon : (s.threads i).won = true := by rw [hi]; rfl
  have hfits := h.fits i
  rw [hi] at hfits
  rcases hwrite with ⟨_, rfl⟩ | ⟨hkind, rfl⟩
  · refine h.movesAsWinner hwon rfl rfl rfl rfl hfits.carried fun _ => ?_
    rw [← hfits.carried newVal.data rfl]
    exact update_self _ _ _
  · refine h.movesAsWinner hwon rfl rfl rfl rfl hfits.carried fun hstored => ?_
    exact absurd (eq_of_beq hstored) hkind

theorem touchStep (hstep : touchStep k s i = some s') :
    ∃ standing, Decided k expected new s' standing := by
  obtain ⟨newVal, now, ttl, hi, rfl⟩ := touchStep_eq_some hstep
  have hfits := h.fits i
  rw [hi] at hfits
  exact h.movesAsWinner (by rw [hi]; rfl) rfl rfl rfl rfl hfits.carried hfits.stored

theorem finishStep (hstep : finishStep k s i = some s') :
    ∃ standing, Decided k expected new s' standing := by
  obtain ⟨newVal, hi, hcommit⟩ := finishStep_eq_some hstep
  have hwon : (s.threads i).won = true := by rw [hi]; rfl
  have hfits := h.fits i
  rw [hi] at hfits
  have hnone : ∀ data, (.returned none : SwapPhase T).carried = some data → data = new i := by
    intro data hdata
    cases hdata
  rcases hcommit with ⟨_, rfl⟩ | ⟨hkind, rfl⟩
  · refine h.movesAsWinner hwon rfl rfl rfl rfl hnone fun _ => ?_
    rw [← hfits.carried newVal.data rfl]
    change (Batch.empty.set k newVal.data).commit s.warp.store k = _
    simp [Batch.commit, Batch.set, Batch.empty]
  · refine h.movesAsWinner hwon rfl rfl rfl rfl hnone fun hstored => ?_
    -- without a batch the value has been stored before
    refine hfits.stored ?_
    cases hplain : s.warp.storeKind with
    | absent =>
      rw [hplain] at hstored
      cases hstored
    | plain => rfl
    | batcher => exact absurd hplain hkind

/-! ## Runs -/

theorem step [DecidableEq T] (hnew : ∀ i, new i ≠ expected) {a : SwapAction}
    (hexclusive : Exclusive k expected new s a) (hstep : machine k expected new s a = some s') :
    ∃ standing, Decided k expected new s' standing := by
  obtain ⟨reg, _, _, hstep⟩ := machine_eq_some hstep
  cases a with
  | call i =>
    obtain ⟨_, rfl⟩ := callStep_eq_some hstep
    exact ⟨standing, h.movesIdly rfl rfl rfl⟩
  | readClock i t =>
    obtain ⟨_, rfl⟩ := readClockStep_eq_some hstep
    exact ⟨standing, h.movesIdly rfl rfl rfl⟩
  | compare i t => exact h.compareStep hnew hexclusive hstep
  | cacheSet i t d => exact h.cacheSetStep hstep
  | write i => exact h.writeStep hstep
  | touch i => exact h.touchStep hstep
  | finish i => exact h.finishStep hstep

end

theorem initial (hidle : ∀ i, s.threads i = .idle) (hcached : s.cachedData k = some expected) :
    Decided k expected new s .undecided := by
  refine ⟨hcached, fun i => .of_not_passed ?_ _ _⟩
  rw [hidle i]
  rfl

end Decided

variable {k : Key} {s s' : Contest T}

theorem excludes_of_exclusive [DecidableEq T] {expected : T} {new : ℕ → T} {as : List SwapAction}
    (hidle : ∀ i, s.threads i = .idle) (hcached : s.cachedData k = some expected)
    (hnew : ∀ i, new i ≠ expected) (hrun : (machine k expected new).run s as = some s')
    (hexclusive : (machine k expected new).AllSteps
      (Exclusive k expected new) s as) : s'.Excludes k new := by
  obtain ⟨standing, h⟩ := (machine k expected new).run_invariant_of_allSteps
    (I := fun t => ∃ standing, Decided k expected new t standing)
    (fun _ _ _ ⟨_, h⟩ hexcl hstep => h.step hnew hexcl hstep) hrun hexclusive
    ⟨.undecided, Decided.initial hidle hcached⟩
  have hwinner : ∀ i, s'.threads i = .returned none → standing = .decided i := by
    intro i hi
    exact (h.fits i).won (by rw [hi]; rfl)
  refine ⟨fun i j hi hj => ?_, fun i hi => ⟨?_, fun hkind => ?_⟩⟩
  · exact Standing.decided.inj ((hwinner i hi).symm.trans (hwinner j hj))
  · rw [h.cached, hwinner i hi]
    rfl
  · refine (h.fits i).stored ?_
    rw [hi]
    exact bne_iff_ne.mpr hkind

/-! ## What becomes of a successful comparison -/

/-- What the step of a transaction does to the phases and to the cache. -/
inductive Advances (k : Key) (s s' : Contest T) (i : ℕ) (ph : SwapPhase T) :
    Prop where
  /-- the cache is not written -/
  | moves (hthreads : s'.threads = update s.threads i ph)
      (hwindow : (s.threads i).inWindow = false)
      (hwon : (s.threads i).won = true → ph.won = true)
      (hcache : s'.cachedData k = s.cachedData k)
  /-- `cache.Set` -/
  | writes (hthreads : s'.threads = update s.threads i ph)
      (hwindow : (s.threads i).inWindow = true) (hwon : ph.won = true)
      (hcache : s'.cachedData k = (s.threads i).carried)

theorem advances_of_not_passed {i : ℕ} {ph : SwapPhase T} (hi : (s.threads i).passed = false)
    (hthreads : s'.threads = update s.threads i ph)
    (hwarp : s'.warp = s.warp) : Advances k s s' i ph := by
  obtain ⟨hwindow, hnot⟩ := Bool.or_eq_false_iff.mp hi
  refine .moves hthreads hwindow (fun hwon => ?_) ?_
  · rw [hnot] at hwon
    cases hwon
  · rw [cachedData, hwarp]
    rfl

theorem advances_step [DecidableEq T] {expected : T} {new : ℕ → T} {a : SwapAction}
    (hstep : machine k expected new s a = some s') :
    ∃ i ph, Advances k s s' i ph := by
  obtain ⟨reg, _, _, hstep⟩ := machine_eq_some hstep
  cases a with
  | call i =>
    obtain ⟨hi, rfl⟩ := callStep_eq_some hstep
    exact ⟨i, _, advances_of_not_passed (by rw [hi]; rfl) rfl rfl⟩
  | readClock i t =>
    obtain ⟨hi, rfl⟩ := readClockStep_eq_some hstep
    exact ⟨i, _, advances_of_not_passed (by rw [hi]; rfl) rfl rfl⟩
  | compare i t =>
    obtain ⟨now, hi, ⟨_, _, _, rfl⟩ | ⟨_, rfl⟩⟩ := compareStep_eq_some hstep
    all_goals exact ⟨i, _, advances_of_not_passed (by rw [hi]; rfl) rfl rfl⟩
  | cacheSet i t d =>
    obtain ⟨newVal, now, ttl, hi, rfl⟩ := cacheSetStep_eq_some hstep
    refine ⟨i, _, .writes rfl (by rw [hi]; rfl) rfl ?_⟩
    change (update s.warp.cache k _ k).map _ = _
    rw [update_self, hi]
    rfl
  | write i =>
    obtain ⟨_, _, _, hi, ⟨_, rfl⟩ | ⟨_, rfl⟩⟩ := writeStep_eq_some hstep
    all_goals exact ⟨i, _, .moves rfl (by rw [hi]; rfl) (fun _ => rfl) rfl⟩
  | touch i =>
    obtain ⟨_, _, _, hi, rfl⟩ := touchStep_eq_some hstep
    exact ⟨i, _, .moves rfl (by rw [hi]; rfl) (fun _ => rfl) rfl⟩
  | finish i =>
    obtain ⟨_, hi, ⟨_, rfl⟩ | ⟨_, rfl⟩⟩ := finishStep_eq_some hstep
    all_goals exact ⟨i, _, .moves rfl (by rw [hi]; rfl) (fun _ => rfl) rfl⟩

/-- The comparison of the transaction `i` has succeeded, and `data` is what it
writes or has written to the cache. -/
def Claims (k : Key) (i : ℕ) (data : T) (s : Contest T) : Prop :=
  (s.threads i).inWindow = true ∧ (s.threads i).carried = some data ∨
    (s.threads i).won = true ∧ s.cachedData k = some data

section Claims

variable [DecidableEq T] {k : Key} {expected : T} {new : ℕ → T} {s s' : Contest T} {i : ℕ}

variable {a : SwapAction}

theorem passed_step (hstep : machine k expected new s a = some s')
    (hi : (s.threads i).passed = true) : (s'.threads i).passed = true := by
  obtain ⟨j, ph, hadv⟩ := advances_step hstep
  by_cases hj : i = j
  · subst hj
    rw [SwapPhase.passed, Bool.or_eq_true] at hi ⊢
    cases hadv with
    | moves hthreads hwindow hwon _ =>
      rw [hthreads, update_self]
      rw [hwindow] at hi
      exact .inr (hwon (hi.resolve_left Bool.false_ne_true))
    | writes hthreads _ hwon _ =>
      rw [hthreads, update_self]
      exact .inr hwon
  · cases hadv with
    | moves hthreads | writes hthreads =>
      rw [hthreads, update_of_ne hj]
      exact hi

theorem passed_run {as : List SwapAction} (hrun : (machine k expected new).run s as = some s')
    (hi : (s.threads i).passed = true) : (s'.threads i).passed = true :=
  (machine k expected new).run_invariant (I := fun t => (t.threads i).passed = true)
    (fun _ _ _ h hstep => passed_step hstep h) hrun hi

theorem Claims.step {data : T} (h : Claims k i data s)
    (hstep : machine k expected new s a = some s')
    (hothers : ∀ j, j ≠ i → (s'.threads j).passed = false) :
    Claims k i data s' := by
  obtain ⟨j, ph, hadv⟩ := advances_step hstep
  by_cases hj : i = j
  · subst hj
    cases hadv with
    | moves hthreads hwindow hwon hcache =>
      rcases h with ⟨hin, _⟩ | ⟨hi, hdata⟩
      · rw [hwindow] at hin
        cases hin
      · refine .inr ⟨?_, hcache.trans hdata⟩
        rw [hthreads, update_self]
        exact hwon hi
    | writes hthreads hwindow hwon hcache =>
      refine .inr ⟨?_, ?_⟩
      · rw [hthreads, update_self]
        exact hwon
      · rcases h with ⟨_, hdata⟩ | ⟨hi, _⟩
        · exact hcache.trans hdata
        · exact absurd hi (SwapPhase.not_won_of_inWindow hwindow)
  · cases hadv with
    | moves hthreads _ _ hcache =>
      rw [Claims, hthreads, update_of_ne hj, hcache]
      exact h
    | writes hthreads _ hwon _ =>
      have hpassed := hothers j (.symm hj)
      rw [hthreads, update_self, SwapPhase.passed, hwon, Bool.or_true] at hpassed
      cases hpassed

theorem Claims.run {data : T} {as : List SwapAction} (h : Claims k i data s)
    (hrun : (machine k expected new).run s as = some s')
    (hothers : ∀ j, j ≠ i → (s'.threads j).passed = false) :
    Claims k i data s' := by
  induction as generalizing s with
  | nil =>
    cases hrun
    exact h
  | cons a rest ih =>
    obtain ⟨u, hu, hrest⟩ := (machine k expected new).run_cons.mp hrun
    refine ih (h.step hu fun j hj => ?_) hrest
    -- a success of another would still be seen at the end
    rw [← Bool.not_eq_true]
    exact fun hpassed => Bool.eq_false_iff.mp (hothers j hj) (passed_run hrest hpassed)

theorem exclusive_of_excludes {u : Contest T}
    {rest : List SwapAction} (hu : machine k expected new s a = some u)
    (hrest : (machine k expected new).run u rest = some s')
    (hended : ∀ i, (s'.threads i).ended = true)
    (hexcludes : s'.Excludes k new) : Exclusive k expected new s a := by
  cases a with
  | compare i t =>
    intro now old hi hget hold
    have hnext : u = (s.tick t).goto i (.matched (s.warp.merges.mergeOver k
        (some old) (.written (new i) now)) now) := by
      obtain ⟨reg, _, _, hu⟩ := machine_eq_some hu
      obtain ⟨now', hi', ⟨old', hget', _, rfl⟩ | ⟨hnot, _⟩⟩ := compareStep_eq_some hu
      · rw [hi, SwapPhase.timed.injEq] at hi'
        rw [hget, Option.some.injEq] at hget'
        rw [hi', hget']
      · exact absurd hold (hnot old hget)
    have hnext_self : u.threads i = .matched (s.warp.merges.mergeOver k
        (some old) (.written (new i) now)) now := by
      rw [hnext]
      exact update_self _ _ _
    have hreturned : ∀ j, (u.threads j).passed = true → s'.threads j = .returned none := fun j hj =>
      SwapPhase.returned_of_passed (hended j) (passed_run hrest hj)
    have hself : s'.threads i = .returned none := hreturned i (by rw [hnext_self]; rfl)
    refine ⟨fun j => ?_, ?_⟩
    · rw [← Bool.not_eq_true]
      intro hin
      have hj : j ≠ i := by
        rintro rfl
        rw [hi] at hin
        cases hin
      refine hj (hexcludes.1 j i (hreturned j ?_) hself)
      have hsame : u.threads j = s.threads j := by
        rw [hnext]
        exact update_of_ne hj _ _
      rw [hsame, SwapPhase.passed, hin, Bool.true_or]
    · have hclaims : Claims k i (s.warp.merges.mergeOver k (some old)
          (.written (new i) now)).data u := by
        refine .inl ?_
        rw [hnext_self]
        exact ⟨rfl, rfl⟩
      have hothers : ∀ j, j ≠ i → (s'.threads j).passed = false := by
        intro j hj
        rw [← Bool.not_eq_true]
        intro hpassed
        exact hj (hexcludes.1 j i (SwapPhase.returned_of_passed (hended j) hpassed) hself)
      rcases hclaims.run hrest hothers with ⟨hin, _⟩ | ⟨_, hdata⟩
      · rw [hself] at hin
        cases hin
      · rw [(hexcludes.2 i hself).1] at hdata
        exact (Option.some.inj hdata).symm
  | _ => trivial

end Claims

/-! ## The theorem -/

/-- When all commits have returned, at most one has returned nil, and its value
is cached and stored, exactly if each successful comparison of the run excluded
the others. -/
theorem excludes_iff_exclusive [DecidableEq T] {k : Key} {expected : T}
    {new : ℕ → T} {s s' : Contest T} {as : List SwapAction}
    (hidle : ∀ i, s.threads i = .idle)
    (hcached : s.cachedData k = some expected)
    (hnew : ∀ i, new i ≠ expected)
    (hrun : (machine k expected new).run s as = some s')
    (hended : ∀ i, (s'.threads i).ended = true) :
    s'.Excludes k new ↔ (machine k expected new).AllSteps (Exclusive k expected new) s as := by
  refine ⟨fun hexcludes => ?_, excludes_of_exclusive hidle hcached hnew hrun⟩
  clear hidle hcached
  induction as generalizing s with
  | nil => trivial
  | cons a rest ih =>
    obtain ⟨u, hu, hrest⟩ := (machine k expected new).run_cons.mp hrun
    exact .cons (exclusive_of_excludes hu hrest hended hexcludes) hu (ih hrest)

/-! ## Two compare-and-swaps -/

/-- The key is cached and stored with 1. -/
def contestedOne : Contest ℕ where
  warp := Warp.localWarp
  clock := 1
  threads := fun _ => .idle

/-- The new value of each transaction. -/
def bid (i : ℕ) : ℕ := i + 2

/-- Both commits compare before either writes. -/
def crossedSwaps : List SwapAction :=
  [.call 0, .call 1, .readClock 0 2, .readClock 1 2, .compare 0 3,
    .compare 1 3, .cacheSet 0 4 0, .cacheSet 1 4 0, .write 0, .write 1,
    .touch 0, .touch 1, .finish 0, .finish 1]

/-- Both commits return nil, and the value of the first is lost. -/
theorem both_won_crossedSwaps : ∃ s, (machine "k" 1 bid).run contestedOne crossedSwaps = some s ∧
      s.threads 0 = .returned none ∧ s.threads 1 = .returned none ∧
      s.cachedData "k" = some 3 ∧ s.warp.store "k" = some 3 ∧
      ¬s.Excludes "k" bid := by
  refine ⟨_, rfl, rfl, rfl, by decide, by decide, fun h => ?_⟩
  exact absurd (h.1 0 1 rfl rfl) (by decide)

/-- The second commit compares before the first has stored anything. -/
def overlappingSwaps : List SwapAction :=
  [.call 0, .call 1, .readClock 0 2, .readClock 1 2, .compare 0 3,
    .cacheSet 0 4 0, .compare 1 4, .write 0, .touch 0, .finish 0]

theorem exclusive_overlappingSwaps : (machine "k" 1 bid).AllSteps (Exclusive "k" 1 bid) contestedOne
      overlappingSwaps := by
  refine .cons trivial rfl ?_
  refine .cons trivial rfl ?_
  refine .cons trivial rfl ?_
  refine .cons trivial rfl ?_
  refine .cons ?_ rfl ?_
  · intro now old hi hget _
    cases hi
    cases hget
    exact ⟨by rintro (_ | _ | j) <;> rfl, by decide⟩
  refine .cons trivial rfl ?_
  refine .cons ?_ rfl ?_
  · -- the second commit finds 2
    intro now old _ hget hold
    cases hget
    exact absurd hold (by decide)
  refine .cons trivial rfl ?_
  refine .cons trivial rfl ?_
  exact .cons trivial rfl trivial

theorem excludes_overlappingSwaps :
    ∃ s, (machine "k" 1 bid).run contestedOne overlappingSwaps = some s ∧
      s.threads 0 = .returned none ∧
      s.threads 1 = .returned (some .casMismatch) ∧ s.Excludes "k" bid := by
  have hrun : (machine "k" 1 bid).run contestedOne overlappingSwaps =
      some _ := rfl
  refine ⟨_, hrun, rfl, rfl, (excludes_iff_exclusive (fun _ => rfl) rfl
    (fun i => by rw [bid]; omega) hrun ?_).mpr exclusive_overlappingSwaps⟩
  rintro (_ | _ | i) <;> rfl

end Contest

end GoWarp.Core
