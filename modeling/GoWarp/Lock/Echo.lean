import GoWarp.Lock.Memory
import GoWarp.Support.Transition
import Mathlib.Data.List.Count

/-!
# A locker alone on its bus

One instance is the only publisher on its bus.  Goroutines call `TryLock` and
`Release`, and the two listeners of the instance handle the events that come
back.  The bus may delay, merge, drop and reorder events, so that all that
matters is how many events of a topic are on their way.

The counter of a topic is raised before the event is published, so there are
never more events on their way than the counter says, and a listener ignores
every one of them.  The table then changes by the calls only: the instance
refines a mutex.
-/

namespace GoWarp.Lock

open Support
open Function (update update_of_ne update_self)

/-- What a call returns: `TryLock` true, false, or an error of the bus;
`Release` always returns nil. -/
inductive Reply where
  | locked (key : Key)
  | refused
  | failed
  | released
deriving DecidableEq

/-- Where a goroutine is in its call: `TryLock` before it looks for the
subscriptions, while it subscribes, and before it looks at the table; either
call before it publishes; and after it has returned. -/
inductive Phase where
  | called (key : Key)
  | subscribing (key : Key)
  | ready (key : Key)
  | publishing (topic : String) (reply : Reply)
  | returned (reply : Reply)
deriving DecidableEq

/-- An instance, the events on their way to its listeners, and the
goroutines.  An event is on its way until its listener has handled it. -/
structure Solo where
  locker : InMemory
  flight : String → ℕ
  threads : List Phase

/-- A step: a call, a step of a goroutine with the answer of the bus, an event
that is dropped or merged into another one, or an event that is handled. -/
inductive Action where
  | tryLock (key : Key)
  | release (key : Key)
  | advance (i : ℕ) (ok : Bool)
  | lose (topic : String)
  | onLock (key : Key)
  | onUnlock (key : Key)
deriving DecidableEq

/-- A call that succeeded, when it has left its critical section. -/
inductive Outcome where
  | locked (i : ℕ) (key : Key)
  | released (key : Key)
deriving DecidableEq

namespace Solo

def new : Solo := ⟨InMemory.new, fun _ => 0, []⟩

/-- The goroutine `i` goes on. -/
def goto (s : Solo) (l : InMemory) (i : ℕ) (phase : Phase) : Solo :=
  { s with locker := l, threads := s.threads.set i phase }

/-- A goroutine calls `Release`, which begins with its critical section. -/
def release (s : Solo) (key : Key) : Solo :=
  match s.locker.release key with
  | some l =>
    { s with
      locker := l
      threads := s.threads ++ [.publishing (unlockTopic key) .released] }
  | none => { s with threads := s.threads ++ [.returned .released] }

/-- The event is published, or dropped at once. -/
def publish (s : Solo) (i : ℕ) (topic : String) (reply : Reply) (ok : Bool) :
    Solo :=
  { s with
    flight := update s.flight topic (s.flight topic + if ok then 1 else 0)
    threads := s.threads.set i (.returned reply) }

/-- The next step of a goroutine. -/
def advance (s : Solo) (i : ℕ) (ok : Bool) : Phase → Option Solo
  | .called key =>
    match s.locker.reserve key with
    | some l => some (s.goto l i (.subscribing key))
    | none => some (s.goto s.locker i (.ready key))
  | .subscribing key =>
    if ok then some (s.goto s.locker i (.ready key))
    else some (s.goto (s.locker.cleanup key) i (.returned .failed))
  | .ready key =>
    match s.locker.tryLock key none with
    | some l =>
      some (s.goto l i (.publishing (lockTopic key) (.locked key)))
    | none => some (s.goto s.locker i (.returned .refused))
  | .publishing topic reply => some (s.publish i topic reply ok)
  | .returned _ => none

/-- An event of a topic leaves the bus. -/
def takeEvent (s : Solo) (topic : String) : Option Solo :=
  if s.flight topic = 0 then none
  else
    some { s with
      flight := update s.flight topic (s.flight topic - 1) }

def step : Machine Solo Action
  | s, .tryLock key => some { s with threads := s.threads ++ [.called key] }
  | s, .release key => some (s.release key)
  | s, .advance i ok => (s.threads[i]?).bind (s.advance i ok)
  | s, .lose topic => s.takeEvent topic
  | s, .onLock key =>
    (s.takeEvent (lockTopic key)).map fun t =>
      { t with locker := t.locker.onLock key }
  | s, .onUnlock key =>
    (s.takeEvent (unlockTopic key)).map fun t => { t with locker := t.locker.onUnlock key }

/-- The call that succeeds in a step. -/
def outcome (s : Solo) : Action → Option Outcome
  | .release key =>
    if s.locker.locks key = none then none else some (.released key)
  | .advance i _ =>
    match s.threads[i]? with
    | some (.ready key) =>
      if s.locker.locks key = none then some (.locked i key) else none
    | _ => none
  | _ => none

/-- The calls that have succeeded in a run, in the order of their critical
sections. -/
def history (steps : List Action) : List Outcome := Machine.emitted step outcome new steps

end Solo

/-! ## The mutex -/

def mutex : Machine (Key → Bool) Outcome
  | held, .locked _ key =>
    if held key then none else some (update held key true)
  | held, .released key => if held key then some (update held key false) else none

theorem held_of_run {held held' : Key → Bool} {between : List Outcome}
    (hrun : mutex.run held between = some held') {key : Key}
    (hheld : held key = true) (hkept : Outcome.released key ∉ between) :
    held' key = true := by
  induction between generalizing held with
  | nil =>
    cases hrun
    exact hheld
  | cons a rest ih =>
    obtain ⟨t, ht, hrest⟩ := mutex.run_cons.mp hrun
    refine ih hrest ?_ (fun h => hkept (List.mem_cons_of_mem a h))
    cases a with
    | locked i k =>
      obtain ⟨-, ht⟩ := Option.ite_none_left_eq_some.mp ht
      cases ht
      by_cases hk : key = k
      · simp [hk]
      · simpa [hk] using hheld
    | released k =>
      obtain ⟨-, ht⟩ := Option.ite_none_right_eq_some.mp ht
      cases ht
      have hk : key ≠ k := by
        rintro rfl
        exact hkept List.mem_cons_self
      simpa [hk] using hheld

theorem released_between {held : Key → Bool} {key : Key} {i j : ℕ}
    {before between after : List Outcome}
    (hrun : mutex.run held (before ++ .locked i key :: (between ++
      .locked j key :: after)) ≠ none) :
    Outcome.released key ∈ between := by
  by_contra hkept
  apply hrun
  rw [mutex.run_append]
  rcases mutex.run held before with _ | s
  · rfl
  rw [Option.bind_some, Machine.run]
  rcases hlock : mutex s (.locked i key) with _ | t
  · rfl
  rw [Option.bind_some, mutex.run_append]
  rcases hbetween : mutex.run t between with _ | u
  · rfl
  have hlocked : t key = true := by
    obtain ⟨-, ht⟩ := Option.ite_none_left_eq_some.mp hlock
    cases ht
    exact update_self _ _ _
  have hheld := held_of_run hbetween hlocked hkept
  rw [Option.bind_some, Machine.run, mutex, if_pos hheld]
  rfl

/-! ## Events and counters -/

/-- The goroutine is about to publish an event of the topic. -/
def Phase.publishes (topic : String) : Phase → Bool
  | .publishing topic' _ => topic' == topic
  | _ => false

/-- What the goroutine will return or has returned. -/
def Phase.reply : Phase → Option Reply
  | .publishing _ reply => some reply
  | .returned reply => some reply
  | _ => none

theorem countP_set_add {α : Type} {p : α → Bool} {l : List α} {i : ℕ}
    {old : α} (hold : l[i]? = some old) (new : α) :
    (l.set i new).countP p + (if p old then 1 else 0) = l.countP p + (if p new then 1 else 0) := by
  obtain ⟨hi, rfl⟩ := List.getElem?_eq_some_iff.mp hold
  rw [List.countP_set hi]
  by_cases hp : p l[i] = true
  · have hpos : 0 < l.countP p :=
      List.countP_pos_iff.mpr ⟨l[i], List.getElem_mem hi, hp⟩
    simp only [hp, if_true]
    omega
  · simp [hp]

namespace Solo

/-- The table of the instance as a mutex. -/
def held (s : Solo) : Key → Bool := fun key => (s.locker.locks key).isSome

/-- The events that are on their way or about to be published are no more
than the counter of their topic says. -/
def Bounded (s : Solo) : Prop :=
  ∀ topic, s.flight topic + s.threads.countP (Phase.publishes topic) ≤ s.locker.pending topic

variable {s s' : Solo}

variable {phase : Phase} {i : ℕ} {l : InMemory} {topic : String} {key : Key} {a : Action}

theorem Bounded.goto (h : s.Bounded) {old : Phase}
    (hold : s.threads[i]? = some old) (hquiet : ∀ topic, old.publishes topic = false)
    (hpending : ∀ topic, s.locker.pending topic +
      (if phase.publishes topic then 1 else 0) ≤ l.pending topic) :
    (s.goto l i phase).Bounded := by
  intro topic
  have hcount := countP_set_add (p := Phase.publishes topic) hold phase
  have hle := h topic
  have hle' := hpending topic
  simp only [hquiet topic, Bool.false_eq_true, if_false, Nat.add_zero] at hcount
  dsimp only [Solo.goto]
  omega

theorem Bounded.publish (h : s.Bounded)
    {reply : Reply} (hold : s.threads[i]? = some (.publishing topic reply))
    (ok : Bool) : (s.publish i topic reply ok).Bounded := by
  intro t
  have hcount := countP_set_add (p := Phase.publishes t) hold (.returned reply)
  have hle := h t
  by_cases ht : t = topic
  · subst ht
    have hone : (if ok then 1 else 0) ≤ 1 := by cases ok <;> decide
    simp only [Phase.publishes, beq_self_eq_true, if_true, Bool.false_eq_true,
      if_false] at hcount
    simp only [Solo.publish, update_self]
    omega
  · simp only [Phase.publishes, beq_iff_eq, Ne.symm ht, if_false, Bool.false_eq_true] at hcount
    simp only [Solo.publish, update_of_ne ht]
    omega

theorem Bounded.append (h : s.Bounded) (hpending : ∀ topic, s.locker.pending topic +
      (if phase.publishes topic then 1 else 0) ≤ l.pending topic) :
    ({ s with locker := l, threads := s.threads ++ [phase] } : Solo).Bounded := by
  intro topic
  have hle := h topic
  have hle' := hpending topic
  simp only [List.countP_append, List.countP_singleton]
  omega

theorem takeEvent_eq_some (h : s.takeEvent topic = some s') : 0 < s.flight topic ∧ s' = { s with
      flight := update s.flight topic (s.flight topic - 1) } := by
  obtain ⟨hpos, hs'⟩ := Option.ite_none_left_eq_some.mp h
  exact ⟨Nat.pos_of_ne_zero hpos, (Option.some.inj hs').symm⟩

theorem Bounded.takeEvent (h : s.Bounded) (hpos : 0 < s.flight topic)
    (hself : s.locker.pending topic ≤ l.pending topic + 1)
    (hother : ∀ t ≠ topic, s.locker.pending t ≤ l.pending t) :
    ({ s with
      locker := l
      flight := update s.flight topic (s.flight topic - 1) } : Solo).Bounded := by
  intro t
  have hle := h t
  by_cases ht : t = topic
  · subst ht
    simp only [update_self]
    omega
  · have hle' := hother t ht
    simp only [update_of_ne ht]
    omega

/-! ## The instance refines the mutex -/

/-- The state after a step keeps the bound, and the step is one of the mutex:
the outcome, or no step if there is none. -/
structure Refines (s : Solo) (o : Option Outcome) (s' : Solo) : Prop where
  bounded : s'.Bounded
  mutex : mutex.run s.held o.toList = some s'.held

theorem Refines.quiet (hbounded : s'.Bounded)
    (hlocks : s'.locker.locks = s.locker.locks) : Refines s none s' where
  bounded := hbounded
  mutex := by
    have hheld : s'.held = s.held := by
      unfold held
      rw [hlocks]
    rw [hheld]
    rfl

theorem held_update {locks : Key → Option LockState} (key : Key) (st : Option LockState) :
    (fun k => (update locks key st k).isSome) =
      update (fun k => (locks k).isSome) key st.isSome := by
  funext k
  by_cases hk : k = key
  · simp [hk]
  · simp [hk]

theorem refines_release (h : s.Bounded) (key : Key) :
    Refines s (s.outcome (.release key)) (s.release key) := by
  rw [outcome, Solo.release]
  cases hrelease : s.locker.release key with
  | none =>
    have hfree : s.locker.locks key = none := by
      by_contra hheld
      obtain ⟨st, hst⟩ := Option.ne_none_iff_exists'.mp hheld
      rw [InMemory.release, hst] at hrelease
      cases hrelease
    rw [if_pos hfree]
    refine .quiet (h.append fun topic => ?_) rfl
    simp [Phase.publishes]
  | some l =>
    obtain ⟨hheld, rfl⟩ := InMemory.release_eq_some hrelease
    rw [if_neg hheld]
    constructor
    · refine h.append fun topic => ?_
      by_cases ht : topic = unlockTopic key
      · simp [Phase.publishes, ht]
      · simp [Phase.publishes, ht, Ne.symm ht]
    · have hkey : s.held key = true := Option.isSome_iff_ne_none.mpr hheld
      rw [Option.toList_some, Machine.run, mutex.eq_def]
      dsimp only
      rw [if_pos hkey]
      exact congrArg some (held_update key none).symm

theorem refines_tryLock (h : s.Bounded) (hold : s.threads[i]? = some (.ready key)) (ok : Bool)
    (hstep : s.advance i ok (.ready key) = some s') :
    Refines s (s.outcome (.advance i ok)) s' := by
  rw [outcome, hold]
  dsimp only
  rw [advance] at hstep
  split at hstep
  · rename_i l hl
    obtain ⟨hfree, rfl⟩ := InMemory.tryLock_eq_some hl
    cases hstep
    rw [if_pos hfree]
    constructor
    · refine h.goto hold (fun _ => rfl) fun topic => ?_
      by_cases ht : topic = lockTopic key
      · simp [Phase.publishes, ht]
      · simp [Phase.publishes, ht, Ne.symm ht]
    · have hkey : ¬s.held key = true := by simp [held, hfree]
      rw [Option.toList_some, Machine.run, mutex.eq_def]
      dsimp only
      rw [if_neg hkey]
      exact congrArg some (held_update key (some ⟨none⟩)).symm
  · rename_i hnone
    cases hstep
    have hheld : s.locker.locks key ≠ none := by
      intro hfree
      rw [InMemory.tryLock, hfree] at hnone
      cases hnone
    rw [if_neg hheld]
    refine .quiet (h.goto hold (fun _ => rfl) fun topic => ?_) rfl
    simp [Phase.publishes]

theorem refines_advance (h : s.Bounded) {ok : Bool} (hold : s.threads[i]? = some phase)
    (hstep : s.advance i ok phase = some s') :
    Refines s (s.outcome (.advance i ok)) s' := by
  cases phase with
  | ready key => exact refines_tryLock h hold ok hstep
  | called key =>
    rw [outcome, hold]
    rw [advance, InMemory.reserve] at hstep
    split at hstep
    · rename_i l hl
      obtain ⟨-, hl⟩ := Option.ite_none_left_eq_some.mp hl
      cases hl
      cases hstep
      refine .quiet (h.goto hold (fun _ => rfl) fun topic => ?_) rfl
      simp [Phase.publishes]
    · cases hstep
      refine .quiet (h.goto hold (fun _ => rfl) fun topic => ?_) rfl
      simp [Phase.publishes]
  | subscribing key =>
    rw [outcome, hold]
    rw [advance] at hstep
    split at hstep
    · cases hstep
      refine .quiet (h.goto hold (fun _ => rfl) fun topic => ?_) rfl
      simp [Phase.publishes]
    · cases hstep
      refine .quiet (h.goto hold (fun _ => rfl) fun topic => ?_) rfl
      simp [Phase.publishes, InMemory.cleanup]
  | publishing topic reply =>
    rw [outcome, hold]
    cases hstep
    exact .quiet (h.publish hold ok) rfl
  | returned reply => cases hstep

theorem refines_step (h : s.Bounded) (hstep : step s a = some s') : Refines s (s.outcome a) s' := by
  cases a with
  | tryLock key =>
    cases hstep
    refine .quiet (h.append fun topic => ?_) rfl
    simp [Phase.publishes]
  | release key =>
    cases hstep
    exact refines_release h key
  | advance i ok =>
    obtain ⟨phase, hold, hstep⟩ := Option.bind_eq_some_iff.mp hstep
    exact refines_advance h hold hstep
  | lose topic =>
    obtain ⟨hpos, rfl⟩ := takeEvent_eq_some hstep
    exact .quiet (h.takeEvent hpos (Nat.le_succ _) fun _ _ => Nat.le_refl _)
      rfl
  | onLock key =>
    obtain ⟨t, ht, rfl⟩ := Option.map_eq_some_iff.mp hstep
    obtain ⟨hpos, rfl⟩ := takeEvent_eq_some ht
    -- the event is the instance's own
    have hown : 0 < s.locker.pending (lockTopic key) :=
      Nat.lt_of_lt_of_le hpos (Nat.le_trans (Nat.le_add_right _ _) (h _))
    rw [InMemory.onLock, if_pos hown]
    refine .quiet (h.takeEvent hpos ?_ fun t ht => ?_) rfl
    · simp only [update_self]
      omega
    · simp [ht]
  | onUnlock key =>
    obtain ⟨t, ht, rfl⟩ := Option.map_eq_some_iff.mp hstep
    obtain ⟨hpos, rfl⟩ := takeEvent_eq_some ht
    have hown : 0 < s.locker.pending (unlockTopic key) :=
      Nat.lt_of_lt_of_le hpos (Nat.le_trans (Nat.le_add_right _ _) (h _))
    rw [InMemory.onUnlock, if_pos hown]
    refine .quiet (h.takeEvent hpos ?_ fun t ht => ?_) rfl
    · simp only [update_self]
      omega
    · simp [ht]

/-! ## Replies -/

/-- The goroutine `i` has taken the lock. -/
def Took (threads : List Phase) (i : ℕ) (key : Key) : Prop :=
  ∃ phase, threads[i]? = some phase ∧ phase.reply = some (.locked key)

theorem took_set {threads : List Phase} {i j : ℕ} (h : Took (threads.set i phase) j key) :
    Took threads j key ∨ (j = i ∧ phase.reply = some (.locked key)) := by
  obtain ⟨phase', hphase', hreply⟩ := h
  rw [List.getElem?_set] at hphase'
  split at hphase'
  · rename_i hij
    obtain ⟨-, hphase'⟩ := Option.ite_none_right_eq_some.mp hphase'
    cases hphase'
    exact .inr ⟨hij.symm, hreply⟩
  · exact .inl ⟨phase', hphase', hreply⟩

theorem took_append {threads : List Phase} {j : ℕ} (h : Took (threads ++ [phase]) j key)
    (hreply : phase.reply ≠ some (.locked key)) : Took threads j key := by
  obtain ⟨phase', hphase', hlocked⟩ := h
  rw [List.getElem?_append] at hphase'
  split at hphase'
  · exact ⟨phase', hphase', hlocked⟩
  · obtain rfl := List.mem_singleton.mp (List.mem_of_getElem? hphase')
    exact absurd hlocked hreply

theorem took_step (hstep : step s a = some s') {j : ℕ} (h : Took s'.threads j key) :
    Took s.threads j key ∨ s.outcome a = some (.locked j key) := by
  cases a with
  | tryLock k =>
    cases hstep
    exact .inl (took_append h (by simp [Phase.reply]))
  | release k =>
    cases hstep
    rw [Solo.release] at h
    split at h
    · exact .inl (took_append h (by simp [Phase.reply]))
    · exact .inl (took_append h (by simp [Phase.reply]))
  | advance i ok =>
    obtain ⟨phase, hold, hstep⟩ := Option.bind_eq_some_iff.mp hstep
    cases phase with
    | called k =>
      rw [advance] at hstep
      split at hstep
      · cases hstep
        exact .inl ((took_set h).resolve_right fun h => by cases h.2)
      · cases hstep
        exact .inl ((took_set h).resolve_right fun h => by cases h.2)
    | subscribing k =>
      rw [advance] at hstep
      split at hstep
      · cases hstep
        exact .inl ((took_set h).resolve_right fun h => by cases h.2)
      · cases hstep
        exact .inl ((took_set h).resolve_right fun h => by cases h.2)
    | ready k =>
      rw [advance] at hstep
      split at hstep
      · rename_i l hl
        cases hstep
        refine (took_set h).imp_right ?_
        rintro ⟨rfl, hreply⟩
        cases hreply
        rw [outcome, hold]
        exact if_pos (InMemory.tryLock_eq_some hl).1
      · cases hstep
        exact .inl ((took_set h).resolve_right fun h => by cases h.2)
    | publishing topic reply =>
      cases hstep
      rcases took_set h with hbefore | ⟨rfl, hreply⟩
      · exact .inl hbefore
      · exact .inl ⟨_, hold, hreply⟩
    | returned reply => cases hstep
  | lose topic =>
    obtain ⟨-, rfl⟩ := takeEvent_eq_some hstep
    exact .inl h
  | onLock k | onUnlock k =>
    obtain ⟨t, ht, rfl⟩ := Option.map_eq_some_iff.mp hstep
    obtain ⟨-, rfl⟩ := takeEvent_eq_some ht
    exact .inl h

/-! ## Runs -/

/-- What a run has done so far: the calls that have succeeded are a run of the
mutex that leaves it as the table is, and they are the ones that return
true. -/
structure Recorded (s : Solo) (h : List Outcome) : Prop where
  bounded : s.Bounded
  mutex : mutex.run (fun _ => false) h = some s.held
  took : ∀ i key, Took s.threads i key → .locked i key ∈ h

theorem Recorded.step {h : List Outcome} (hr : s.Recorded h) (hstep : step s a = some s') :
    s'.Recorded (h ++ (s.outcome a).toList) where
  bounded := (refines_step hr.bounded hstep).bounded
  mutex := by
    rw [Machine.run_append, hr.mutex]
    exact (refines_step hr.bounded hstep).mutex
  took i key htook := by
    rcases took_step hstep htook with hbefore | hnow
    · exact List.mem_append_left _ (hr.took i key hbefore)
    · rw [hnow]
      exact List.mem_append_right _ List.mem_cons_self

theorem recorded_of_run {steps : List Action} (hrun : Machine.run Solo.step new steps = some s) :
    s.Recorded (history steps) := by
  have hnew : new.Recorded [] := by
    constructor
    · exact fun _ => Nat.le_refl _
    · rfl
    · rintro i key ⟨phase, hphase, -⟩
      cases hphase
  have hrecorded := Machine.run_history Solo.step outcome (I := Recorded)
    (fun _ _ _ _ hr hstep => .step hr hstep) hrun hnew
  rwa [List.nil_append] at hrecorded

/-- In every run, a `TryLock` that returns true is in the history of the calls
that succeeded, between two of them for a key there is a `Release`, and a step
after which a free lock is held is a `TryLock` that succeeds. -/
theorem echoes_ignored (steps : List Action) (s : Solo)
    (hrun : Machine.run Solo.step new steps = some s) :
    (∀ i key, s.threads[i]? = some (.returned (.locked key)) → .locked i key ∈ history steps) ∧
      (∀ key i j before between after, history steps =
          before ++ .locked i key :: (between ++ .locked j key :: after) →
        .released key ∈ between) ∧
      ∀ a s' key, Solo.step s a = some s' → s.locker.locks key = none → s'.locker.locks key ≠ none →
        ∃ i, s.outcome a = some (.locked i key) := by
  have hr := recorded_of_run hrun
  refine ⟨?_, ?_, ?_⟩
  · intro i key hi
    exact hr.took i key ⟨_, hi, rfl⟩
  · intro key i j before between after hsplit
    have hsome : mutex.run (fun _ => false) (before ++ .locked i key ::
        (between ++ .locked j key :: after)) ≠ none := by
      rw [← hsplit, hr.mutex]
      exact Option.some_ne_none _
    exact released_between hsome
  · intro a s' key hstep hfree hheld
    have hmutex := (refines_step hr.bounded hstep).mutex
    have hbefore : s.held key = false := by simp [held, hfree]
    have hafter : s'.held key = true := Option.isSome_iff_ne_none.mpr hheld
    cases ho : s.outcome a with
    | none =>
      rw [ho] at hmutex
      rw [← Option.some.inj hmutex, hbefore] at hafter
      cases hafter
    | some o =>
      rw [ho, Option.toList_some] at hmutex
      obtain ⟨t, ht, hs'⟩ := (Machine.run_cons _).mp hmutex
      cases hs'
      cases o with
      | locked i k =>
        obtain ⟨-, ht⟩ := Option.ite_none_left_eq_some.mp ht
        rw [← Option.some.inj ht] at hafter
        by_cases hk : key = k
        · exact ⟨i, by rw [hk]⟩
        · rw [update_of_ne hk, hbefore] at hafter
          cases hafter
      | released k =>
        obtain ⟨-, ht⟩ := Option.ite_none_right_eq_some.mp ht
        rw [← Option.some.inj ht] at hafter
        by_cases hk : key = k
        · rw [hk, update_self] at hafter
          cases hafter
        · rw [update_of_ne hk, hbefore] at hafter
          cases hafter

/-- Two goroutines lock, release and lock again while the first echoes are
under way. -/
def lateEchoes : List Action :=
  [.tryLock "k", .advance 0 true, .advance 0 true, .advance 0 true,
    .advance 0 true, .tryLock "k", .advance 1 true, .advance 1 true,
    .release "k", .advance 2 true, .onUnlock "k",
    .tryLock "k", .advance 3 true, .advance 3 true, .onLock "k"]

theorem echoes_ignored_lateEchoes : ∃ s, Machine.run Solo.step new lateEchoes = some s ∧
      s.threads[0]? = some (.returned (.locked "k")) ∧
      .locked 0 "k" ∈ history lateEchoes :=
  ⟨_, rfl, rfl, (echoes_ignored lateEchoes _ rfl).1 0 "k" rfl⟩

end Solo

end GoWarp.Lock
