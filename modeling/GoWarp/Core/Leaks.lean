import GoWarp.Core.Coalescing

/-!
# Errors that leak between callers

All callers that wait for a flight receive its result, whatever the flight has
done and with whose context.  So a `GetOrSet` may return the `ErrNotFound` of
the lookup of a `Get`, without having called its loader, and a `Get` may
return the cancellation of another caller.

No error leaks where callers keep apart: a `GetOrSet` that missed joins only
flights that call a loader, nobody who missed joins a flight whose starter's
context is done, and no context ends while others wait for the flight of its
caller.
-/

namespace GoWarp.Core.Coalescing

open Support
open Function (update update_of_ne update_self forall_update_iff)

variable {T : Type}

/-- The errors that a caller whose context is not done may receive: a
`GetOrSet` those of loaders, and a `Get` all but those of contexts. -/
def Fair : Method → Fault → Prop
  | .getOrSet, .loader _ => True
  | .getOrSet, .loaderContext _ => True
  | .getOrSet, _ => False
  | .get, .context _ => False
  | .get, .loaderContext _ => False
  | .get, _ => True

/-- What a call has received or returned while its context is not done: a
`GetOrSet` returns a value of the cache, of the store or of a loader, or the
error of a loader; a `Get` does not return the error of a context. -/
def Phase.Clean (canceled : Bool) : Phase T → Prop
  | .delivered (.miss m) (.error e) => canceled = false → Fair m e
  | .returned .getOrSet reply => canceled = false →
      (∃ origin v, reply = .found origin v) ∨ ∃ e, reply = .failed e ∧ Fair .getOrSet e
  | .returned .get reply => canceled = false →
      ∀ e, reply.err = some e → Fair .get e
  | _ => True

theorem Phase.clean_found (canceled : Bool) (m : Method) (origin : Origin)
    (v : T) : (Phase.returned m (.found origin v)).Clean canceled := by
  cases m with
  | get =>
    rintro _ e ⟨⟩
  | getOrSet => exact fun _ => .inl ⟨origin, v, rfl⟩

theorem Phase.clean_of_canceled (ph : Phase T) : ph.Clean true := by
  rw [Phase.Clean.eq_def]
  split
  · rintro ⟨⟩
  · rintro ⟨⟩
  · rintro ⟨⟩
  · trivial

/-! ## What flights may end with -/

/-- A flight that is started for this reason calls a loader. -/
def Reason.loads : Reason T → Bool
  | .miss .getOrSet => true
  | .stale .getOrSet _ _ => true
  | _ => false

/-- The errors that a flight may end with. -/
def Flight.Explains (f : Flight T) (canceled : ℕ → Bool) : Fault → Prop
  | .unregistered => False
  | .notFound => f.reason.loads = false
  | .store _ => f.reason.loads = false
  | .loader _ => f.reason.loads = true
  | .context _ => canceled f.starter = true
  | .loaderContext _ => canceled f.starter = true

/-- A flight does what its starter has started it for. -/
def Flight.Sound (f : Flight T) (canceled : ℕ → Bool) : Prop :=
  match f.job with
  | .lookup _ => f.reason.loads = false
  | .check => f.reason.loads = true
  | .load _ => f.reason.loads = true
  | .write _ => f.reason.loads = true
  | .done (.error e) => f.Explains canceled e
  | .done (.ok _) => True

theorem Reason.sound_job (r : Reason T) (i : ℕ) (canceled : ℕ → Bool) :
    Flight.Sound ⟨i, r, r.job⟩ canceled := by
  cases r with
  | miss m | stale m => cases m <;> rfl
  | soft | eager => rfl

variable {canceled : ℕ → Bool}

/-- Who waits for a flight that its starter has not given up may receive the
errors it ends with. -/
theorem Flight.Explains.fair {f : Flight T} {e : Fault} {m : Method}
    (h : f.Explains canceled e) (hstarter : canceled f.starter = false)
    (hloads : m = .getOrSet → f.reason.loads = true) : Fair m e := by
  have hlookup : f.reason.loads = false → m = .get := by
    intro hreason
    cases m with
    | get => rfl
    | getOrSet => cases hreason.symm.trans (hloads rfl)
  cases e with
  | unregistered => exact h.elim
  | notFound | store =>
    rw [hlookup h]
    trivial
  | loader => cases m <;> trivial
  | context | loaderContext => cases hstarter.symm.trans h

theorem Flight.Sound.cancel {f : Flight T} (h : f.Sound canceled) (i : ℕ) :
    f.Sound (update canceled i true) := by
  rw [Flight.Sound] at h ⊢
  cases hjob : f.job with
  | done o =>
    rw [hjob] at h
    cases o with
    | error e =>
      cases e with
      | context | loaderContext => by_cases hi : f.starter = i <;> simp_all [Flight.Explains]
      | _ => exact h
    | ok _ => trivial
  | _ => rwa [hjob] at h

namespace Callers

variable {k : Key} {s s' s'' : Callers T} {i j : ℕ}

/-! ## Steps of the callers -/

/-- The flight and the contexts are as before, and every thread that has moved
has received nothing that it may not receive and does not wait after a
miss. -/
structure Calm (s s' : Callers T) : Prop where
  flight : s'.flight = s.flight
  canceled : s'.canceled = s.canceled
  threads : ∀ i, s'.threads i = s.threads i ∨ ((s.threads i).Clean (s.canceled i) →
      (s'.threads i).Clean (s.canceled i)) ∧
    ∀ m, s'.threads i ≠ .waiting (.miss m)

namespace Calm

theorem trans (h : Calm s s') (h' : Calm s' s'') : Calm s s'' where
  flight := h'.flight.trans h.flight
  canceled := h'.canceled.trans h.canceled
  threads i := by
    have hfirst := h.threads i
    have hsecond := h'.threads i
    rw [h.canceled] at hsecond
    rcases hsecond with heq | ⟨hclean, hwaits⟩
    · rw [heq]
      exact hfirst
    · refine .inr ⟨fun hs => hclean ?_, hwaits⟩
      rcases hfirst with heq | ⟨hclean', -⟩
      · rw [heq]
        exact hs
      · exact hclean' hs

theorem onWarp (s : Callers T) (f : Warp T → Warp T) : Calm s (s.onWarp f) :=
  ⟨rfl, rfl, fun _ => .inl rfl⟩

theorem goto_of_imp {ph : Phase T}
    (hph : (s.threads i).Clean (s.canceled i) → ph.Clean (s.canceled i))
    (hwaits : ∀ m, ph ≠ .waiting (.miss m)) : Calm s (s.goto i ph) where
  flight := rfl
  canceled := rfl
  threads := (forall_update_iff s.threads fun j ph =>
    ph = s.threads j ∨ ((s.threads j).Clean (s.canceled j) → ph.Clean (s.canceled j)) ∧
      ∀ m, ph ≠ .waiting (.miss m)).mpr ⟨.inr ⟨hph, hwaits⟩, fun _ _ => .inl rfl⟩

theorem goto {ph : Phase T} (hph : ph.Clean (s.canceled i))
    (hwaits : ∀ m, ph ≠ .waiting (.miss m)) : Calm s (s.goto i ph) :=
  goto_of_imp (fun _ => hph) hwaits

theorem found (s : Callers T) (i : ℕ) (m : Method) (origin : Origin) (v : T) :
    Calm s (s.goto i (.returned m (.found origin v))) :=
  goto (Phase.clean_found _ m origin v) (by simp)

end Calm

theorem calm_beginGet (s : Callers T) (i : ℕ) (env : Env) : Calm s (s.beginGet k i env) := by
  rw [Callers.beginGet]
  split
  · refine .goto ?_ (by simp)
    rintro _ e ⟨⟩
    trivial
  · split
    · split
      · exact .found s i _ _ _
      · exact .goto trivial (by simp)
    · split
      · refine .goto ?_ (by simp)
        rintro _ e ⟨⟩
        trivial
      · exact .goto trivial (by simp)

variable {env : Env}

theorem cacheGet_eq_error {e : Fault} (h : s.cacheGet k i env = .error e) :
    s.canceled i = true ∧ e = .context i := by
  rw [Callers.cacheGet] at h
  split at h
  · split at h
    · cases h
    · cases h
      exact ⟨by assumption, rfl⟩
  · cases h

theorem calm_beginGetOrSet (s : Callers T) (i : ℕ) (env : Env) :
    Calm s (s.beginGetOrSet k i env) := by
  rw [Callers.beginGetOrSet]
  refine (Calm.onWarp s fun w => w.ensureRegistered k).trans ?_
  split
  · rename_i hget
    refine .goto ?_ (by simp)
    rw [(cacheGet_eq_error hget).1]
    exact Phase.clean_of_canceled _
  · exact .goto trivial (by simp)
  · exact .goto trivial (by simp)

theorem calm_inspectStep (hstep : s.inspectStep k i j env = some s') : Calm s s' := by
  rw [Callers.inspectStep] at hstep
  dsimp only at hstep
  split at hstep
  · rename_i m v reg _ _
    split at hstep
    · cases hstep
      exact .goto trivial (by simp)
    · have hreturned := (Calm.onWarp s fun w => w.slide env k reg v
        (env.clock (.operation k))).trans (.found _ i m .cache v.data)
      split at hstep
      · split at hstep
        · cases hstep
        · split at hstep
          · cases hstep
            exact hreturned.trans (.goto trivial (by simp))
          · cases hstep
            exact hreturned
      · cases hstep
        exact hreturned
      · cases hstep
  · cases hstep

theorem calm_softTimeoutStep (hstep : s.softTimeoutStep k i j = some s') : Calm s s' := by
  rw [Callers.softTimeoutStep] at hstep
  split at hstep
  · split at hstep <;> cases hstep
    exact (Calm.found s i _ _ _).trans (.goto trivial (by simp))
  · split at hstep <;> cases hstep
    exact (Calm.found s i _ _ _).trans (.goto trivial (by simp))
  · cases hstep

theorem calm_receiveFault {r : Reason T} {e : Fault} (hi : s.threads i = .delivered r (.error e)) :
    Calm s (s.receiveFault i e r) := by
  cases r with
  | miss m =>
    refine .goto_of_imp (fun hclean => ?_) (by simp)
    rw [hi] at hclean
    cases m with
    | get =>
      rintro hcanceled _ ⟨⟩
      exact hclean hcanceled
    | getOrSet =>
      exact fun hcanceled => .inr ⟨e, rfl, hclean hcanceled⟩
  | stale m v ttl =>
    cases m with
    | get =>
      rw [Callers.receiveFault]
      split
      · refine .goto ?_ (by simp)
        rintro _ e ⟨⟩
        trivial
      · exact .found s i _ _ _
    | getOrSet => exact .found s i _ _ _
  | soft ttl => exact .goto trivial (by simp)
  | eager ttl => exact .goto trivial (by simp)

theorem calm_receiveValue (s : Callers T) (i : ℕ) (env : Env)
    (reg : Registration) (origin : Origin) (mv : Value T) (r : Reason T) :
    Calm s (s.receiveValue k i env reg origin mv r) := by
  cases r with
  | miss m =>
    cases m with
    | get => exact (Calm.onWarp s _).trans (.found _ i _ _ _)
    | getOrSet => exact .found s i _ _ _
  | stale m v ttl => exact (Calm.onWarp s _).trans (.found _ i _ _ _)
  | soft ttl | eager ttl => exact (Calm.onWarp s _).trans (.goto trivial (by simp))

theorem calm_receiveStep (hstep : s.receiveStep k i env = some s') : Calm s s' := by
  rw [Callers.receiveStep] at hstep
  split at hstep
  · rename_i hi _
    cases hstep
    exact calm_receiveFault hi
  · cases hstep
    exact calm_receiveValue s i _ _ _ _ _
  · cases hstep

/-! ## Steps of a flight -/

/-- A step of the flight, which stays one that its starter has started. -/
structure Flies (s s' : Callers T) : Prop where
  threads : s'.threads = s.threads
  canceled : s'.canceled = s.canceled
  flight : ∃ f job, s.flight = some f ∧ s'.flight = some { f with job := job } ∧
    (f.Sound s.canceled → Flight.Sound { f with job := job } s.canceled)

theorem flies_fly {f : Flight T} {job : Job T} (hf : s.flight = some f)
    (hsound : f.Sound s.canceled → Flight.Sound { f with job := job } s.canceled) :
    Flies s (s.fly f job) :=
  ⟨rfl, rfl, f, job, hf, rfl, hsound⟩

theorem flies_lookupStep {a : StoreAnswer}
    (hstep : s.lookupStep k a env = some s') : Flies s s' := by
  rw [Callers.lookupStep] at hstep
  split at hstep
  · rename_i f hf
    split at hstep
    · rename_i hjob
      have hlookup : f.Sound s.canceled → f.reason.loads = false := by
        rw [Flight.Sound, hjob]
        exact id
      split at hstep <;> cases hstep
      · exact flies_fly hf fun _ => trivial
      · exact flies_fly hf hlookup
    · rename_i hjob
      cases hstep
      refine flies_fly hf fun h => ?_
      rw [Flight.Sound, hjob] at h
      exact h
    · split at hstep
      · rename_i hcanceled
        cases hstep
        exact flies_fly hf fun _ => hcanceled
      · cases hstep
    · cases hstep
  · cases hstep

theorem flies_checkStep (hstep : s.checkStep k env = some s') : Flies s s' := by
  rw [Callers.checkStep] at hstep
  split at hstep
  · rename_i f hf
    split at hstep
    · rename_i hjob
      split at hstep
      · rename_i hget
        obtain ⟨hcanceled, rfl⟩ := cacheGet_eq_error hget
        cases hstep
        exact flies_fly hf fun _ => hcanceled
      · cases hstep
        exact flies_fly hf fun _ => trivial
      · cases hstep
        refine flies_fly hf fun h => ?_
        rw [Flight.Sound, hjob] at h
        exact h
    · cases hstep
  · cases hstep

theorem flies_loadStep {a : LoaderAnswer T}
    (hstep : s.loadStep k a env = some s') : Flies s s' := by
  rw [Callers.loadStep] at hstep
  split at hstep
  · rename_i f reg hf _
    split at hstep
    · rename_i hjob
      split at hstep <;> cases hstep
      · refine ⟨rfl, rfl, f, _, hf, rfl, fun h => ?_⟩
        rw [Flight.Sound, hjob] at h
        exact h
      · exact flies_fly hf fun _ => trivial
    · rename_i hjob
      cases hstep
      refine flies_fly hf fun h => ?_
      rw [Flight.Sound, hjob] at h
      exact h
    · split at hstep
      · rename_i hcanceled
        cases hstep
        exact flies_fly hf fun _ => hcanceled
      · cases hstep
    · cases hstep
  · cases hstep

theorem flies_writeStep (hstep : s.writeStep k env = some s') : Flies s s' := by
  rw [Callers.writeStep] at hstep
  split at hstep
  · rename_i f hf
    split at hstep
    · cases hstep
      exact ⟨rfl, rfl, f, _, hf, rfl, fun _ => trivial⟩
    · cases hstep
  · cases hstep

theorem finishStep_eq_some (hstep : s.finishStep = some s') :
    ∃ f o, s.flight = some f ∧ f.job = .done o ∧ s' = { s with
        flight := none
        threads := fun i => deliver o (s.threads i) } := by
  rw [Callers.finishStep] at hstep
  split at hstep
  · rename_i f hf
    split at hstep
    · rename_i o ho
      cases hstep
      exact ⟨f, o, hf, ho, rfl⟩
    · cases hstep
  · cases hstep

theorem joinStep_eq_some (hstep : s.joinStep i = some s') : ∃ r, s.threads i = .joining r ∧
      s' = { s.goto i (.waiting r) with
        flight := some (s.flight.getD ⟨i, r, r.job⟩) } := by
  rw [Callers.joinStep] at hstep
  split at hstep
  · rename_i r hi
    cases hstep
    exact ⟨r, hi, rfl⟩
  · cases hstep

theorem cancelStep_eq_some (hstep : s.cancelStep k i = some s') :
    s' = { s with canceled := update s.canceled i true } := by
  rw [Callers.cancelStep] at hstep
  split at hstep
  · cases hstep
  · split at hstep <;> cases hstep
    rfl
  · cases hstep
    rfl

inductive Moves (s : Callers T) : Action T → Callers T → Prop where
  | calm {a : Action T} {s' : Callers T} (h : Calm s s') : Moves s a s'
  | flies {a : Action T} {s' : Callers T} (h : Flies s s') : Moves s a s'
  | join (i : ℕ) (r : Reason T) (hi : s.threads i = .joining r) :
      Moves s (.join i) { s.goto i (.waiting r) with
        flight := some (s.flight.getD ⟨i, r, r.job⟩) }
  | cancel (i : ℕ) :
      Moves s (.cancel i) { s with canceled := update s.canceled i true }
  | finish (f : Flight T) (o : Outcome T) (hf : s.flight = some f)
      (hjob : f.job = .done o) :
      Moves s .finish { s with
        flight := none
        threads := fun i => deliver o (s.threads i) }

theorem moves_of_step {a : Action T} (hstep : step k s a = some s') : Moves s a s' := by
  cases a with
  | call i m =>
    rw [step, callStep] at hstep
    split at hstep <;> cases hstep
    exact .calm (.goto trivial (by simp))
  | cancel i =>
    obtain rfl := cancelStep_eq_some hstep
    exact .cancel i
  | cacheGet i env =>
    rw [step, cacheGetStep] at hstep
    split at hstep <;> cases hstep
    · exact .calm (calm_beginGet s i env)
    · exact .calm (calm_beginGetOrSet s i env)
  | inspect i j env => exact .calm (calm_inspectStep hstep)
  | join i =>
    obtain ⟨r, hi, rfl⟩ := joinStep_eq_some hstep
    exact .join i r hi
  | lookup a env => exact .flies (flies_lookupStep hstep)
  | check env => exact .flies (flies_checkStep hstep)
  | load a env => exact .flies (flies_loadStep hstep)
  | write env => exact .flies (flies_writeStep hstep)
  | finish =>
    obtain ⟨f, o, hf, hjob, rfl⟩ := finishStep_eq_some hstep
    exact .finish f o hf hjob
  | softTimeout i j => exact .calm (calm_softTimeoutStep hstep)
  | receive i env => exact .calm (calm_receiveStep hstep)

/-! ## No error leaks -/

/-- Every caller has received what it may receive. -/
def NoLeak (s : Callers T) : Prop := ∀ i, (s.threads i).Clean (s.canceled i)

/-- The condition on a step.  A caller that missed joins a flight only while
the context of its starter is not done, and a `GetOrSet` only one that calls a
loader.  The context of the starter of a flight ends only while no other
caller whose context is not done waits for the flight after a miss. -/
def KeepsApart (s : Callers T) : Action T → Prop
  | .join i => ∀ f m, s.flight = some f → s.threads i = .joining (.miss m) →
      s.canceled f.starter = false ∧ (m = .getOrSet → f.reason.loads = true)
  | .cancel i => ∀ f, s.flight = some f → f.starter = i →
      ∀ j m, s.threads j = .waiting (.miss m) → s.canceled j = false → j = i
  | _ => True

/-- Whoever waits after a miss waits for a flight that may end only with
errors it may receive. -/
structure KeptApart (s : Callers T) : Prop where
  clean : s.NoLeak
  sound : ∀ f, s.flight = some f → f.Sound s.canceled
  waits : ∀ i m, s.threads i = .waiting (.miss m) → ∃ f, s.flight = some f ∧ (s.canceled i = false →
      s.canceled f.starter = false ∧ (m = .getOrSet → f.reason.loads = true))

theorem clean_deliver {o : Outcome T} {ph : Phase T} {canceled : Bool} (hph : ph.Clean canceled)
    (ho : ∀ m e, ph = .waiting (.miss m) → o = .error e → canceled = false →
      Fair m e) : (deliver o ph).Clean canceled := by
  cases ph with
  | waiting r =>
    cases r with
    | miss m =>
      cases o with
      | error e => exact ho m e rfl rfl
      | ok _ => trivial
    | _ => trivial
  | _ => exact hph

theorem NoLeak.calm (h : s.NoLeak) (hcalm : Calm s s') : s'.NoLeak := by
  intro j
  rw [hcalm.canceled]
  rcases hcalm.threads j with heq | ⟨hclean, -⟩
  · rw [heq]
    exact h j
  · exact hclean (h j)

namespace KeptApart

section

variable (h : s.KeptApart)
include h

theorem calm (hcalm : Calm s s') : s'.KeptApart where
  clean := h.clean.calm hcalm
  sound f hf := by
    rw [hcalm.canceled]
    exact h.sound f (hcalm.flight ▸ hf)
  waits j m hj := by
    rw [hcalm.canceled, hcalm.flight]
    rcases hcalm.threads j with heq | ⟨-, hwaits⟩
    · exact h.waits j m (heq ▸ hj)
    · exact absurd hj (hwaits m)

theorem flies (hflies : Flies s s') : s'.KeptApart := by
  obtain ⟨f, job, hf, hf', hsound⟩ := hflies.flight
  refine ⟨fun j => ?_, fun g hg => ?_, fun j m hj => ?_⟩
  · rw [hflies.canceled, hflies.threads]
    exact h.clean j
  · obtain rfl := Option.mem_unique hf' hg
    rw [hflies.canceled]
    exact hsound (h.sound f hf)
  · rw [hflies.threads] at hj
    obtain ⟨g, hg, hwaits⟩ := h.waits j m hj
    obtain rfl := Option.mem_unique hf hg
    rw [hflies.canceled]
    exact ⟨_, hf', hwaits⟩

theorem join {r : Reason T} (hi : s.threads i = .joining r) (hapart : s.KeepsApart (.join i)) :
    KeptApart { s.goto i (.waiting r) with flight := some (s.flight.getD ⟨i, r, r.job⟩) } where
  clean := (forall_update_iff s.threads fun j ph => ph.Clean (s.canceled j)).mpr
    ⟨trivial, fun j _ => h.clean j⟩
  sound := by
    rintro f ⟨⟩
    cases hf : s.flight with
    | none => exact r.sound_job i s.canceled
    | some f => exact h.sound f hf
  waits j m hj := by
    change update s.threads i (.waiting r) j = _ at hj
    by_cases hji : j = i
    · -- the caller starts a flight of its own, or joins one
      subst hji
      rw [update_self] at hj
      cases hj
      refine ⟨_, rfl, fun hcanceled => ?_⟩
      cases hf : s.flight with
      | none => exact ⟨hcanceled, fun hm => by subst hm; rfl⟩
      | some f => exact hapart f m hf hi
    · rw [update_of_ne hji] at hj
      obtain ⟨f, hf, hwaits⟩ := h.waits j m hj
      refine ⟨f, ?_, hwaits⟩
      dsimp only
      rw [hf, Option.getD_some]

theorem cancel (hapart : s.KeepsApart (.cancel i)) :
    KeptApart { s with canceled := update s.canceled i true } where
  clean := (forall_update_iff s.canceled fun j canceled =>
    (s.threads j).Clean canceled).mpr ⟨Phase.clean_of_canceled _, fun j _ => h.clean j⟩
  sound f hf := (h.sound f hf).cancel i
  waits j m hj := by
    obtain ⟨f, hf, hwaits⟩ := h.waits j m hj
    refine ⟨f, hf, fun hcanceled => ?_⟩
    have hji : j ≠ i := by
      rintro rfl
      simp at hcanceled
    simp only [update_of_ne hji] at hcanceled
    obtain ⟨hstarter, hloads⟩ := hwaits hcanceled
    refine ⟨?_, hloads⟩
    dsimp only
    rw [update_of_ne fun heq => hji (hapart f hf heq j m hj hcanceled)]
    exact hstarter

theorem finish {f : Flight T} {o : Outcome T} (hf : s.flight = some f) (hjob : f.job = .done o) :
    KeptApart { s with flight := none, threads := fun i => deliver o (s.threads i) } where
  clean j := by
    refine clean_deliver (h.clean j) fun m e hj hoe hcanceled => ?_
    obtain ⟨g, hg, hwaits⟩ := h.waits j m hj
    obtain rfl := Option.mem_unique hf hg
    obtain ⟨hstarter, hloads⟩ := hwaits hcanceled
    have hsound := h.sound f hf
    rw [Flight.Sound, hjob, hoe] at hsound
    exact hsound.fair hstarter hloads
  sound := by rintro f ⟨⟩
  waits j m hj := by
    dsimp only at hj
    cases hph : s.threads j <;> rw [hph] at hj <;> cases hj

theorem step {a : Action T} (hapart : s.KeepsApart a)
    (hstep : step k s a = some s') : s'.KeptApart := by
  cases moves_of_step hstep with
  | calm hcalm => exact h.calm hcalm
  | flies hflies => exact h.flies hflies
  | join i r hi => exact h.join hi hapart
  | cancel i => exact h.cancel hapart
  | finish f o hf hjob => exact h.finish hf hjob

end

theorem of_idle (hidle : ∀ i, s.threads i = .idle) (hflight : s.flight = none) : s.KeptApart where
  clean i := by
    rw [hidle i]
    trivial
  sound f hf := by cases hflight.symm.trans hf
  waits i m hi := by cases (hidle i).symm.trans hi

end KeptApart

end Callers

/-- In every run in which callers keep apart no error leaks. -/
theorem noLeak_of_keepsApart (k : Key) (s₀ s : Callers T)
    (hidle : ∀ i, s₀.threads i = .idle) (hflight : s₀.flight = none)
    (steps : List (Action T)) (hrun : (step k).run s₀ steps = some s)
    (hapart : (step k).AllSteps Callers.KeepsApart s₀ steps) : s.NoLeak :=
  ((step k).run_invariant_of_allSteps (fun _ _ _ h hapart hstep => h.step hapart hstep) hrun hapart
    (Callers.KeptApart.of_idle hidle hflight)).clean

/-- A Warp with a store that holds nothing, and nothing cached. -/
def emptyStore : Warp ℕ :=
  { Warp.uniform (Registration.new .strongLocal 60 TTLOptions.zero) with storeKind := .plain }

def newCallers : Callers ℕ := ⟨emptyStore, none, fun _ => .idle, fun _ => false⟩

/-- A `GetOrSet` joins the lookup of a `Get`. -/
def joinsLookup : List (Action ℕ) :=
  [.call 0 .get, .cacheGet 0 Warp.workingEnv, .join 0,
    .call 1 .getOrSet, .cacheGet 1 Warp.workingEnv, .join 1,
    .lookup .content Warp.workingEnv, .finish, .receive 1 Warp.workingEnv]

/-- A `Get` joins the flight of a `GetOrSet` whose context is done before it
looks at the cache. -/
def joinsCanceled : List (Action ℕ) :=
  [.call 0 .getOrSet, .cacheGet 0 Warp.workingEnv, .join 0,
    .call 1 .get, .cacheGet 1 Warp.workingEnv, .join 1, .cancel 0,
    .check Warp.workingEnv, .finish, .receive 1 Warp.workingEnv]

/-- The `GetOrSet` returns the `ErrNotFound` of the lookup, and the `Get` the
error of the context of the `GetOrSet`. -/
theorem leaks_joinsLookup_joinsCanceled : (∃ s, (step "k").run newCallers joinsLookup = some s ∧
      s.threads 1 = .returned .getOrSet (.failed .notFound) ∧
      s.canceled 1 = false) ∧
    ∃ s, (step "k").run newCallers joinsCanceled = some s ∧
      s.threads 1 = .returned .get (.failed (.context 0)) ∧
      s.canceled 1 = false :=
  ⟨⟨_, rfl, rfl, rfl⟩, ⟨_, rfl, rfl, rfl⟩⟩

/-- Two calls of `GetOrSet` share the error of a loader, and a `Get` whose
context ends while it waits for the same flight is handed it too. -/
def shareLoader : List (Action ℕ) :=
  [.call 0 .getOrSet, .cacheGet 0 Warp.workingEnv, .join 0,
    .call 1 .getOrSet, .cacheGet 1 Warp.workingEnv, .join 1,
    .call 2 .get, .cacheGet 2 Warp.workingEnv, .join 2, .cancel 2,
    .check Warp.workingEnv, .load (.error (.component 7)) Warp.workingEnv,
    .finish, .receive 1 Warp.workingEnv, .receive 2 Warp.workingEnv]

theorem keepsApart_shareLoader : (step "k").AllSteps Callers.KeepsApart newCallers shareLoader := by
  iterate 2 refine .cons trivial rfl ?_
  refine .cons (by rintro f m ⟨⟩) rfl ?_
  iterate 2 refine .cons trivial rfl ?_
  refine .cons (by rintro f m ⟨⟩ _; exact ⟨rfl, fun _ => rfl⟩) rfl ?_
  iterate 2 refine .cons trivial rfl ?_
  refine .cons (by rintro f m ⟨⟩ _; exact ⟨rfl, fun _ => rfl⟩) rfl ?_
  -- the flight is not the one of the caller whose context ends
  refine .cons (by rintro f ⟨⟩ ⟨⟩) rfl ?_
  iterate 5 refine .cons trivial rfl ?_
  trivial

theorem noLeak_shareLoader : ∃ s, (step "k").run newCallers shareLoader = some s ∧ s.NoLeak ∧
      s.threads 1 = .returned .getOrSet (.failed (.loader (.component 7))) ∧
      s.threads 2 = .returned .get (.failed (.loader (.component 7))) :=
  ⟨_, rfl, noLeak_of_keepsApart "k" newCallers _ (fun _ => rfl) rfl shareLoader rfl
    keepsApart_shareLoader, rfl, rfl⟩

end GoWarp.Core.Coalescing
