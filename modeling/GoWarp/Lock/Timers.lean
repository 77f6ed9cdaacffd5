import GoWarp.Lock.Memory
import GoWarp.Support.Transition
import Mathlib.Data.Int.Notation

/-!
# Expiry timers of the in-memory locker

A `TryLock` with a positive ttl arms a timer whose callback calls `Release` for
the key.  Whoever removes the entry stops the timer, but a timer that has fired
cannot be stopped: its callback waits for the mutex, and by then the entry may
be the one of a later `TryLock`.

The callback knows the key only.  It removes no entry but its own as long as
no `TryLock` succeeds while a callback for its key is waiting, and one that
succeeds then can lose its lock at once.
-/

namespace GoWarp.Lock

open Support
open Function (update update_of_ne update_self)

/-- A timer: not yet used, armed, fired with its callback waiting for the
mutex, stopped, or done. -/
inductive Timer where
  | unused
  | armed (key : Key)
  | fired (key : Key)
  | stopped
  | done
deriving DecidableEq

/-- An instance with its timers, of which the next free one is `next`. -/
structure Timed where
  locker : InMemory
  next : ℕ
  timers : ℕ → Timer

namespace Timed

inductive Action where
  /-- The section of `TryLock`. -/
  | tryLock (key : Key) (ttl : ℤ)
  /-- The section of `Release`. -/
  | release (key : Key)
  /-- The timer fires. -/
  | fire (t : ℕ)
  /-- The section of `Release` in the callback of the timer. -/
  | callback (t : ℕ)
  /-- A listener handles an event of the bus. -/
  | onLock (key : Key)
  | onUnlock (key : Key)
deriving DecidableEq

def new : Timed := ⟨InMemory.new, 0, fun _ => .unused⟩

/-- `timer.Stop()` for the timer of an entry, which has no effect on a timer
that has fired. -/
def stop (timers : ℕ → Timer) (e : Option LockState) (t : ℕ) : Timer :=
  match timers t with
  | .armed key => if e = some ⟨some t⟩ then .stopped else .armed key
  | timer => timer

/-- The section of `TryLock`, which arms a timer if the ttl is positive. -/
def tryLock (s : Timed) (key : Key) (ttl : ℤ) : Timed :=
  if 0 < ttl then
    match s.locker.tryLock key (some s.next) with
    | some l =>
      ⟨l, s.next + 1, update s.timers s.next (.armed key)⟩
    | none => s
  else
    match s.locker.tryLock key none with
    | some l => { s with locker := l }
    | none => s

/-- The section of `Release`. -/
def release (s : Timed) (key : Key) : Timed :=
  match s.locker.release key with
  | some l =>
    { s with locker := l, timers := stop s.timers (s.locker.locks key) }
  | none => s

/-- The listener at an unlock event, which stops the timer of the entry it
removes. -/
def onUnlock (s : Timed) (key : Key) : Timed :=
  { s with
    locker := s.locker.onUnlock key
    timers := if 0 < s.locker.pending (unlockTopic key) then s.timers
      else stop s.timers (s.locker.locks key) }

def step : Machine Timed Action
  | s, .tryLock key ttl => some (s.tryLock key ttl)
  | s, .release key => some (s.release key)
  | s, .fire t =>
    match s.timers t with
    | .armed key =>
      some { s with timers := update s.timers t (.fired key) }
    | _ => none
  | s, .callback t =>
    match s.timers t with
    | .fired key =>
      some (release { s with timers := update s.timers t .done } key)
    | _ => none
  | s, .onLock key => some { s with locker := s.locker.onLock key }
  | s, .onUnlock key => some (s.onUnlock key)

/-! ## What is asked of a run -/

/-- The step is the callback of a timer, and removes the entry that a `TryLock`
with another timer has installed. -/
def RemovesOther (s : Timed) : Action → Prop
  | .callback t => ∃ key t', s.timers t = .fired key ∧
      s.locker.locks key = some ⟨some t'⟩ ∧ t' ≠ t
  | _ => False

/-- A `TryLock` that succeeds and arms a timer does so while no callback for
its key is waiting. -/
def Alone (s : Timed) : Action → Prop
  | .tryLock key ttl => 0 < ttl → s.locker.locks key = none →
      ∀ t < s.next, s.timers t ≠ .fired key
  | _ => True

instance (s : Timed) (a : Action) : Decidable (s.Alone a) := by
  cases a <;> unfold Alone <;> infer_instance

/-! ## The invariant -/

/-- The timers match the entries: an armed timer is the one of its entry, a
callback that is waiting finds no other one, and the next timer is unused. -/
structure Matched (s : Timed) : Prop where
  armed : ∀ t key, s.timers t = .armed key → s.locker.locks key = some ⟨some t⟩
  fired : ∀ t key t', s.timers t = .fired key → s.locker.locks key = some ⟨some t'⟩ → t' = t
  fresh : ∀ t, s.next ≤ t → s.timers t = .unused

theorem matched_new : Matched new where
  armed t key h := by cases h
  fired t key t' h := by cases h
  fresh t _ := rfl

variable {timers : ℕ → Timer} {t : ℕ}

theorem stop_eq_armed {e : Option LockState} {key : Key} (h : stop timers e t = .armed key) :
    timers t = .armed key ∧ e ≠ some ⟨some t⟩ := by
  rw [stop] at h
  cases ht : timers t <;> rw [ht] at h
  case armed k =>
    by_cases he : e = some ⟨some t⟩
    · simp [he] at h
    · simp only [if_neg he] at h
      exact ⟨h, he⟩
  all_goals cases h

theorem stop_of_ne_armed (h : ∀ key, timers t ≠ .armed key) (e : Option LockState) :
    stop timers e t = timers t := by
  rw [stop]
  cases ht : timers t
  case armed k => exact absurd ht (h k)
  all_goals rfl

theorem fired_of_stop {e : Option LockState}
    {key : Key} (h : stop timers e t = .fired key) : timers t = .fired key := by
  rw [stop] at h
  cases ht : timers t <;> rw [ht] at h
  case armed k =>
    by_cases he : e = some ⟨some t⟩
    · simp [he] at h
    · simp [he] at h
  all_goals exact h

variable {s : Timed}

section

variable (h : Matched s)
include h

variable {l : InMemory}

theorem Matched.remove (key : Key) (hl : l.locks = update s.locker.locks key none) :
    Matched { s with
      locker := l
      timers := stop s.timers (s.locker.locks key) } where
  armed t k ht := by
    obtain ⟨ht, hother⟩ := stop_eq_armed ht
    have hk := h.armed t k ht
    have hne : k ≠ key := by
      rintro rfl
      exact hother hk
    dsimp only
    rw [hl, update_of_ne hne, hk]
  fired t k t' ht hlock := by
    dsimp only at hlock
    rw [hl] at hlock
    by_cases hk : k = key
    · rw [hk, update_self] at hlock
      cases hlock
    · rw [update_of_ne hk] at hlock
      exact h.fired t k t' (fired_of_stop ht) hlock
  fresh t ht := by
    have hunused := h.fresh t ht
    refine (stop_of_ne_armed (fun k hk => ?_) _).trans hunused
    rw [hunused] at hk
    cases hk

theorem Matched.putPlain {key : Key} (hfree : s.locker.locks key = none)
    (hl : l.locks = update s.locker.locks key (some ⟨none⟩)) :
    Matched { s with locker := l } where
  armed t k ht := by
    have hk := h.armed t k ht
    have hne : k ≠ key := by
      rintro rfl
      rw [hfree] at hk
      cases hk
    dsimp only
    rw [hl, update_of_ne hne, hk]
  fired t k t' ht hlock := by
    dsimp only at hlock
    rw [hl] at hlock
    by_cases hk : k = key
    · rw [hk, update_self] at hlock
      cases hlock
    · rw [update_of_ne hk] at hlock
      exact h.fired t k t' ht hlock
  fresh := h.fresh

theorem Matched.sameLocks (hl : l.locks = s.locker.locks) : Matched { s with locker := l } where
  armed t k ht := by
    dsimp only
    rw [hl]
    exact h.armed t k ht
  fired t k t' ht hlock := by
    dsimp only at hlock
    rw [hl] at hlock
    exact h.fired t k t' ht hlock
  fresh := h.fresh

theorem Matched.release (key : Key) : Matched (s.release key) := by
  rw [Timed.release]
  cases hl : s.locker.release key with
  | none => exact h
  | some l =>
    obtain ⟨-, rfl⟩ := InMemory.release_eq_some hl
    exact h.remove key rfl

theorem Matched.tryLock {key : Key} {ttl : ℤ}
    (halone : s.Alone (.tryLock key ttl)) : Matched (s.tryLock key ttl) := by
  rw [Timed.tryLock]
  split
  next httl =>
    cases hl : s.locker.tryLock key (some s.next) with
    | none => exact h
    | some l =>
      obtain ⟨hfree, rfl⟩ := InMemory.tryLock_eq_some hl
      have hwait := halone httl hfree
      refine ⟨fun t k ht => ?_, fun t k t' ht hlock => ?_, fun t ht => ?_⟩
      · dsimp only at ht ⊢
        by_cases htn : t = s.next
        · subst htn
          rw [update_self] at ht
          cases ht
          exact update_self ..
        · rw [update_of_ne htn] at ht
          have hk := h.armed t k ht
          have hne : k ≠ key := by
            rintro rfl
            rw [hfree] at hk
            cases hk
          rw [update_of_ne hne, hk]
      · dsimp only at ht hlock
        by_cases htn : t = s.next
        · rw [htn, update_self] at ht
          cases ht
        · rw [update_of_ne htn] at ht
          have hk : k ≠ key := by
            rintro rfl
            refine hwait t ?_ ht
            by_contra hge
            rw [h.fresh t (Nat.not_lt.mp hge)] at ht
            cases ht
          rw [update_of_ne hk] at hlock
          exact h.fired t k t' ht hlock
      · have hne : t ≠ s.next := by
          dsimp only at ht
          omega
        dsimp only at ht ⊢
        rw [update_of_ne hne]
        exact h.fresh t (by omega)
  · cases hl : s.locker.tryLock key none with
    | none => exact h
    | some l =>
      obtain ⟨hfree, rfl⟩ := InMemory.tryLock_eq_some hl
      exact h.putPlain hfree rfl

theorem Matched.onLock (key : Key) : Matched { s with locker := s.locker.onLock key } := by
  rw [InMemory.onLock]
  split
  · exact h.sameLocks rfl
  · cases hlock : s.locker.locks key with
    | some st => exact h
    | none => exact h.putPlain hlock rfl

theorem Matched.onUnlock (key : Key) : Matched (s.onUnlock key) := by
  rw [Timed.onUnlock, InMemory.onUnlock]
  by_cases hpending : 0 < s.locker.pending (unlockTopic key)
  · rw [if_pos hpending, if_pos hpending]
    exact h.sameLocks rfl
  · rw [if_neg hpending, if_neg hpending]
    exact h.remove key rfl

theorem Matched.setTimer {t : ℕ} {v : Timer}
    (hused : s.timers t ≠ .unused) (harmed : ∀ key, v ≠ .armed key)
    (hfired : ∀ key, v = .fired key → s.locker.locks key = some ⟨some t⟩) :
    Matched { s with timers := update s.timers t v } where
  armed u k hu := by
    dsimp only at hu
    by_cases hut : u = t
    · rw [hut, update_self] at hu
      exact absurd hu (harmed k)
    · rw [update_of_ne hut] at hu
      exact h.armed u k hu
  fired u k t' hu hlock := by
    dsimp only at hu hlock
    by_cases hut : u = t
    · subst hut
      rw [update_self] at hu
      rw [hfired k hu] at hlock
      cases hlock
      rfl
    · rw [update_of_ne hut] at hu
      exact h.fired u k t' hu hlock
  fresh u hu := by
    have hut : u ≠ t := by
      rintro rfl
      exact hused (h.fresh u hu)
    dsimp only
    rw [update_of_ne hut]
    exact h.fresh u hu

theorem Matched.step {s' : Timed} {a : Action}
    (halone : s.Alone a) (hstep : Timed.step s a = some s') : Matched s' := by
  cases a with
  | tryLock key ttl =>
    cases hstep
    exact h.tryLock halone
  | release key =>
    cases hstep
    exact h.release key
  | fire t =>
    cases ht : s.timers t <;> rw [Timed.step, ht] at hstep <;> cases hstep
    refine h.setTimer (by rw [ht]; simp) (by simp) fun key hkey => ?_
    cases hkey
    exact h.armed t _ ht
  | callback t =>
    cases ht : s.timers t <;> rw [Timed.step, ht] at hstep <;> cases hstep
    refine .release ?_ _
    exact h.setTimer (by rw [ht]; simp) (by simp) (by simp)
  | onLock key =>
    cases hstep
    exact h.onLock key
  | onUnlock key =>
    cases hstep
    exact h.onUnlock key

/-! ## Runs -/

theorem Matched.not_removesOther (a : Action) : ¬s.RemovesOther a := by
  cases a with
  | callback t =>
    rintro ⟨key, t', hfired, hlock, hne⟩
    exact hne (h.fired t key t' hfired hlock)
  | _ => exact id

end

theorem alone_of_forall {s' : Timed} {a : Action}
    (hstep : step s a = some s') (hnone : ∀ b, ¬s'.RemovesOther b) :
    s.Alone a := by
  cases a with
  | tryLock key ttl =>
    intro httl hfree t ht hfired
    have hne : t ≠ s.next := Nat.ne_of_lt ht
    have hs' : s.tryLock key ttl = s' := Option.some.inj hstep
    rw [tryLock, if_pos httl, InMemory.tryLock, hfree] at hs'
    subst hs'
    refine hnone (.callback t) ⟨key, s.next, ?_, ?_, hne.symm⟩
    · exact (update_of_ne hne _ _).trans hfired
    · exact update_self ..
  | _ => trivial

/-- In no state of a run can a callback remove the entry of another `TryLock`,
exactly if in the run no `TryLock` succeeds while a callback for its key is
waiting. -/
theorem removes_own_iff_alone {as : List Action} {s : Timed} (hrun : step.run new as = some s) :
    (∀ before t, before <+: as → step.run new before = some t →
      ∀ a, ¬t.RemovesOther a) ↔ step.AllSteps Alone new as :=
  step.forall_states_iff_allSteps (fun _ _ _ h halone => h.step halone)
    (fun _ h => h.not_removesOther)
    (fun _ _ _ _ hstep => alone_of_forall hstep) hrun matched_new

/-- A lock that expires, and is taken again when the callback has run. -/
def expireSteps : List Action := [.tryLock "k" 1, .fire 0, .callback 0, .tryLock "k" 1]

theorem removes_own_expireSteps : (step.run new expireSteps).isSome ∧
      ∀ before t, before <+: expireSteps → step.run new before = some t →
        ∀ a, ¬t.RemovesOther a := by
  have hsome : (step.run new expireSteps).isSome := by decide
  obtain ⟨s, hrun⟩ := Option.isSome_iff_exists.mp hsome
  exact ⟨hsome, (removes_own_iff_alone hrun).mpr (by decide)⟩

/-- A lock that is released and taken again while the callback of its timer is
waiting. -/
def overtakenSteps : List Action := [.tryLock "k" 1, .fire 0, .release "k", .tryLock "k" 1]

/-- The callback removes the entry of the second `TryLock`. -/
theorem removes_later_entry : ∃ s s', step.run new overtakenSteps = some s ∧
      s.locker.locks "k" = some ⟨some 1⟩ ∧ s.timers 0 = .fired "k" ∧
      step s (.callback 0) = some s' ∧ s'.locker.locks "k" = none :=
  ⟨_, _, rfl, rfl, rfl, rfl, rfl⟩

end Timed

end GoWarp.Lock
