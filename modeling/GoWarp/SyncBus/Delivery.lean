import GoWarp.SyncBus.InFlight

/-!
# What a publish reaches

A call that is not merged sends to every channel of its key, or finds it full.
So `Publish` leaves an event in every channel that was subscribed all along,
or the subscriber has received one since the call began, and
`PublishAndAwait` has sent to as many channels as it was asked for.  A call
that finds the mark returns at once, and whether its promise is kept depends
on the call that set the mark: for `Publish` that call should have begun to
send after the merged one was called, and have been through its channels; for
`PublishAndAwait` it should have sent to enough of them.
-/

namespace GoWarp.SyncBus

open Support

namespace Call

/-- An event has been received from the channel since the call began, or one
is buffered. -/
def Reached (b : Bus) (call : Call) (ch : ℕ) : Prop :=
  call.seen ch < (b.chans ch).received ∨ (b.chans ch).buffer.isSome

/-- Every channel that was subscribed when the call began and still is has
been reached. -/
def Heard (b : Bus) (call : Call) : Prop :=
  ∀ ch ∈ call.audience, ch ∈ b.subs call.key → call.Reached b ch

/-- The channels that have been subscribed all along and are not in `rest`
have been reached. -/
def HeardBut (b : Bus) (call : Call) (rest : List ℕ) : Prop :=
  ∀ ch ∈ call.audience, ch ∈ b.subs call.key → ch ∈ rest ∨ call.Reached b ch

/-- The history of a call agrees with the channels. -/
def Known (b : Bus) (call : Call) : Prop :=
  ∀ ch ∈ call.audience, ch < b.nextChan ∧ call.seen ch ≤ (b.chans ch).received

theorem heardBut_nil_iff {b : Bus} {call : Call} : call.HeardBut b [] ↔ call.Heard b := by
  simp [HeardBut, Heard]

end Call

/-- The channels a call still has to reach, unless it fails or has not yet
looked them up. -/
def Phase.left : Phase → Option (List ℕ)
  | .sending rest => some rest
  | .clearing none => some []
  | .returned none => some []
  | _ => none

/-- The call has not looked for the mark yet. -/
def Phase.Early (phase : Phase) : Prop := phase = .called ∨ phase = .checked

/-! ## Steps of a call -/

section Frame

variable {b : Bus} {i : ℕ} {call other : Call} {r : Bus × Call}

theorem Frame.reached (h : Frame b i call r) {ch : ℕ} (hr : other.Reached b ch) :
    other.Reached r.1 ch := by
  rcases hr with hlt | hbuffer
  · exact .inl (h.received ch ▸ hlt)
  · exact .inr (h.buffer ch hbuffer)

theorem Frame.known (h : Frame b i call r) (ho : other.Known b) : other.Known r.1 := by
  intro ch hch
  rw [h.nextChan, h.received]
  exact ho ch hch

theorem Frame.heardBut (h : Frame b i call r) {rest : List ℕ} (ho : other.HeardBut b rest) :
    other.HeardBut r.1 rest := by
  intro ch hch hsub
  rw [h.subs] at hsub
  exact (ho ch hch hsub).imp_right h.reached

end Frame

namespace Turn

variable {b : Bus} {i : ℕ} {call other : Call} {r : Bus × Call} {rest : List ℕ}

variable (h : Turn b i call r)
include h

/-- What a call has left to reach, any call for the same key has yet to hear
from, if that was so before the step and when the call is merged. -/
theorem heardBut_left (hbus : b.Sound) (hsends : call.Sends b i) (hkey : other.key = call.key)
    (hold : ∀ rest, call.phase.left = some rest → other.HeardBut b rest)
    (hmerged : call.phase = .checked → b.pending call.key ≠ none → other.Heard b)
    (hleft : r.2.phase.left = some rest) : other.HeardBut r.1 rest := by
  have hkeep : ∀ {rest}, call.phase.left = some rest → other.HeardBut r.1 rest :=
    fun hrest => h.frame.heardBut (hold _ hrest)
  -- the channel at the head of the list has an event now
  have hnext : ∀ {ch rest}, call.phase = .sending (ch :: rest) →
      (r.1.chans ch).buffer.isSome → other.HeardBut r.1 rest := by
    intro ch rest hphase hbuffer c hc hsub
    rcases hkeep (by rw [hphase]; rfl) c hc hsub with hmem | hreached
    · rcases List.mem_cons.mp hmem with rfl | hmem
      · exact .inr (.inr hbuffer)
      · exact .inl hmem
    · exact .inr hreached
  cases h with
  | rejected | checked | marked | stopped | unsatisfied => cases hleft
  | merged j hphase hpending =>
    cases hleft
    exact Call.heardBut_nil_iff.mpr (hmerged hphase (by rw [hpending]; exact Option.some_ne_none j))
  | refused err hphase hrefused =>
    -- a publish without subscribers
    rw [Call.refused] at hrefused
    split at hrefused
    · intro ch _ hsub
      rw [hkey, (Option.ite_none_right_eq_some.mp hrefused).1] at hsub
      cases hsub
    · obtain ⟨-, herr⟩ := Option.ite_none_right_eq_some.mp hrefused
      cases herr
      cases hleft
  | entered hphase hrefused =>
    cases hleft
    exact fun ch _ hsub => .inl (hkey ▸ hsub)
  | panicked ch rest' hphase hclosed =>
    have hmem := (hsends _ hphase).2.subset List.mem_cons_self
    rw [(hbus.opened _ ch hmem).2.1] at hclosed
    cases hclosed
  | sent ch rest' hphase hempty =>
    cases hleft
    exact hnext hphase (by simp)
  | skipped ch rest' hphase hfull =>
    cases hleft
    exact hnext hphase hfull
  | finished published hphase =>
    cases hleft
    exact hkeep (by rw [hphase]; rfl)
  | cleared err hphase =>
    refine hkeep ?_
    rw [hphase]
    cases err with
    | none => exact hleft
    | some err => cases hleft

theorem early (hearly : r.2.phase.Early) : call.phase.Early := by
  cases h with
  | checked hphase => exact .inl hphase
  | _ => rcases hearly with hphase | hphase <;> cases hphase

theorem unmarked : r.2.unmarked = call.unmarked := by cases h <;> rfl

theorem pending_eq (key : Key) : r.1.pending key = b.pending key ∨ r.1.pending key = none ∨
      (key = call.key ∧ r.1.pending key = some i ∧ r.2.phase = .marked) := by
  cases h with
  | marked =>
    by_cases hk : key = call.key
    · exact .inr (.inr ⟨hk, by simp [hk], rfl⟩)
    · exact .inl (by simp [hk])
  | cleared =>
    by_cases hk : key = call.key
    · exact .inr (.inl (by simp [Call.clear, hk]))
    · exact .inl (by simp [Call.clear, hk])
  | _ => exact .inl rfl

theorem heardBut_self {rest : List ℕ} : r.2.HeardBut r.1 rest ↔ call.HeardBut r.1 rest := by
  simp only [Call.HeardBut, Call.Reached, h.frame.audience, h.frame.key, h.frame.seen]

end Turn

/-! ## Steps of the subscribers -/

namespace Call

variable {b : Bus} {call : Call} {rest : List ℕ}

theorem Known.subscribe (h : call.Known b) (key : Key) : call.Known (b.subscribe key) := by
  intro ch hch
  obtain ⟨hlt, hle⟩ := h ch hch
  have hne : ch ≠ b.nextChan := Nat.ne_of_lt hlt
  exact ⟨Nat.lt_succ_of_lt hlt, by simpa [Bus.subscribe, hne] using hle⟩

theorem HeardBut.subscribe (h : call.HeardBut b rest) (hknown : call.Known b) (key : Key) :
    call.HeardBut (b.subscribe key) rest := by
  intro ch hch hsub
  have hne : ch ≠ b.nextChan := Nat.ne_of_lt (hknown ch hch).1
  have hold : ch ∈ b.subs call.key := by
    by_cases hk : call.key = key
    · simpa [Bus.subscribe, hk, hne] using hsub
    · simpa [Bus.subscribe, hk] using hsub
  simpa [Call.Reached, Bus.subscribe, hne] using h ch hch hold

theorem Known.unsubscribe (h : call.Known b) (key : Key) (c : ℕ) :
    call.Known (b.unsubscribe key c) := by
  intro ch hch
  rw [Bus.nextChan_unsubscribe, Bus.received_unsubscribe]
  exact h ch hch

theorem HeardBut.unsubscribe (h : call.HeardBut b rest) (hbus : b.Sound) (key : Key) (c : ℕ) :
    call.HeardBut (b.unsubscribe key c) rest := by
  intro ch hch hsub
  rw [hbus.mem_unsubscribe_iff] at hsub
  rw [Call.Reached, Bus.received_unsubscribe, Bus.buffer_unsubscribe]
  exact h ch hch hsub.2

variable {c : ℕ} {q : Event × Bus}

theorem Known.receive (h : call.Known b) (hq : b.receive c = some q) : call.Known q.2 := by
  obtain ⟨event, hbuffer, rfl⟩ := Option.map_eq_some_iff.mp hq
  intro ch hch
  refine ⟨(h ch hch).1, (h ch hch).2.trans ?_⟩
  by_cases hc : ch = c <;> simp [hc]

theorem HeardBut.receive (h : call.HeardBut b rest) (hknown : call.Known b)
    (hq : b.receive c = some q) : call.HeardBut q.2 rest := by
  obtain ⟨event, hbuffer, rfl⟩ := Option.map_eq_some_iff.mp hq
  intro ch hch hsub
  refine (h ch hch hsub).imp_right fun hr => ?_
  by_cases hc : ch = c
  · subst hc
    left
    simpa using Nat.lt_succ_of_le (hknown ch hch).2
  · simpa [Call.Reached, hc] using hr

end Call

/-! ## Publish -/

namespace System

/-- The invariant of the calls of `Publish`.  A publish has reached all
channels but those it has to reach still.  A call that began without a mark
and has not looked for it yet has been reached by whoever has set the mark
since, but for the channels that are left. -/
structure Announcing (s : System) : Prop where
  sound : s.Sound
  marked : s.Marked
  known : ∀ i call, s.calls i = some call → call.Known s.bus
  heard : ∀ i call, s.calls i = some call → call.method = .publish →
    ∀ rest, call.phase.left = some rest → call.HeardBut s.bus rest
  awaiting : ∀ i call, s.calls i = some call → call.unmarked = true → call.phase.Early →
    ∀ j other, s.bus.pending call.key = some j → s.calls j = some other →
      ∀ rest, other.phase.left = some rest → call.HeardBut s.bus rest

/-- Every call of `Publish` that has returned nil has been heard. -/
def AllHeard (s : System) : Prop :=
  ∀ i call, s.calls i = some call → call.method = .publish →
    call.phase = .returned none → call.Heard s.bus

/-- The condition on a step: when a call finds the mark, the two calls are in
the relation, that call and the one that has set the mark. -/
def Merges (P : Call → Call → Prop) (s : System) : Action → Prop
  | .advance i => ∀ call, s.calls i = some call → call.phase = .checked →
      ∀ j, s.bus.pending call.key = some j → ∀ marker, s.calls j = some marker → P call marker
  | _ => True

instance (P : Call → Call → Prop) [∀ call marker, Decidable (P call marker)] (s : System) :
    ∀ a, Decidable (s.Merges P a)
  | .advance i =>
    haveI (call : Call) (j : ℕ) : Decidable (∀ marker, s.calls j = some marker → P call marker) :=
      Machine.decidableForallEqSome (s.calls j)
    haveI (call : Call) : Decidable (∀ j, s.bus.pending call.key = some j →
        ∀ marker, s.calls j = some marker → P call marker) :=
      Machine.decidableForallEqSome (s.bus.pending call.key)
    Machine.decidableForallEqSome (s.calls i)
  | .call _ _ _ _ => isTrue trivial
  | .cancel _ => isTrue trivial
  | .abort _ => isTrue trivial
  | .subscribe _ => isTrue trivial
  | .unsubscribe _ _ => isTrue trivial
  | .receive _ => isTrue trivial

/-- A publish is merged late: the mark was not set when it began, and the call
that has set it since has been through its channels. -/
def Late (call marker : Call) : Prop :=
  call.method = .publish → call.unmarked = true ∧ marker.phase.left = some []

instance (call marker : Call) : Decidable (Late call marker) := inferInstanceAs (Decidable (_ → _))

variable {s s' : System}

theorem Announcing.allHeard (h : s.Announcing) : s.AllHeard := by
  intro i call hcall hmethod hphase
  refine Call.heardBut_nil_iff.mp (h.heard i call hcall hmethod [] ?_)
  rw [hphase]
  rfl

theorem Announcing.heard_of_late (h : s.Announcing) {i : ℕ} {call : Call}
    (hcall : s.calls i = some call) (hlate : s.Merges Late (.advance i))
    (hmethod : call.method = .publish) (hphase : call.phase = .checked)
    (hpending : s.bus.pending call.key ≠ none) : call.Heard s.bus := by
  obtain ⟨j, hj⟩ := Option.ne_none_iff_exists'.mp hpending
  obtain ⟨marker, hmarker, -⟩ := h.marked call.key j hj
  obtain ⟨hunmarked, hleft⟩ := hlate call hcall hphase j hj marker hmarker hmethod
  exact Call.heardBut_nil_iff.mp
    (h.awaiting i call hcall hunmarked (.inr hphase) j marker hj hmarker [] hleft)

variable {i : ℕ} {call : Call} {r : Bus × Call}

section

variable (h : s.Announcing)
include h

/-- A step of the call that has set the mark goes on with what it has left. -/
theorem Announcing.awaiting_turn (hcall : s.calls i = some call)
    (hturn : Turn s.bus i call r) {b : ℕ} {waiter : Call} (hwaiter : s.calls b = some waiter)
    (hunmarked : waiter.unmarked = true) (hearly : waiter.phase.Early) {j : ℕ} {other : Call}
    (hpending : r.1.pending waiter.key = some j) (hother : (s.put i r).calls j = some other)
    {rest : List ℕ} (hleft : other.phase.left = some rest) : waiter.HeardBut r.1 rest := by
  rcases Entries.update_cases hother with ⟨rfl, rfl⟩ | ⟨hji, hother⟩
  · rcases hturn.pending_eq waiter.key with hsame | hnone | ⟨-, -, hmarked⟩
    · rw [hsame] at hpending
      obtain ⟨marker, hmarker, hkey, hinside⟩ := h.marked waiter.key j hpending
      obtain rfl := Option.mem_unique hcall hmarker
      refine hturn.heardBut_left h.sound.bus (h.sound.sends j call hcall) hkey.symm
        (h.awaiting b waiter hwaiter hunmarked hearly j call hpending hcall) ?_ hleft
      intro hchecked
      rw [hchecked] at hinside
      exact hinside.elim
    · rw [hnone] at hpending
      cases hpending
    · rw [hmarked] at hleft
      cases hleft
  · rcases hturn.pending_eq waiter.key with hsame | hnone | ⟨-, hset, -⟩
    · exact hturn.frame.heardBut (h.awaiting b waiter hwaiter hunmarked hearly j other
        (hsame ▸ hpending) hother rest hleft)
    · rw [hnone] at hpending
      cases hpending
    · rw [hset] at hpending
      exact absurd (Option.some.inj hpending).symm hji

theorem Announcing.turn (hcall : s.calls i = some call) (hturn : Turn s.bus i call r)
    (hmerged : call.method = .publish → call.phase = .checked →
      s.bus.pending call.key ≠ none → call.Heard s.bus) : (s.put i r).Announcing where
  sound := h.sound.turn hcall hturn
  marked := h.marked.turn hcall hturn
  known := by
    refine forall_calls_put_iff.mpr ⟨?_, fun j other _ hother =>
      hturn.frame.known (h.known j other hother)⟩
    intro ch hch
    rw [hturn.frame.audience] at hch
    rw [hturn.frame.seen]
    exact hturn.frame.known (h.known i call hcall) ch hch
  heard := by
    refine forall_calls_put_iff.mpr ⟨?_, fun j other _ hother hmethod rest hleft =>
      hturn.frame.heardBut (h.heard j other hother hmethod rest hleft)⟩
    intro hmethod rest hleft
    rw [hturn.frame.method] at hmethod
    exact hturn.heardBut_self.mpr (hturn.heardBut_left h.sound.bus (h.sound.sends i call hcall)
      rfl (h.heard i call hcall hmethod) (hmerged hmethod) hleft)
  awaiting := by
    refine forall_calls_put_iff.mpr ⟨?_, fun b waiter _ hwaiter hunmarked hearly j other
      hpending hother rest hleft =>
        h.awaiting_turn hcall hturn hwaiter hunmarked hearly hpending hother hleft⟩
    intro hunmarked hearly j other hpending hother rest hleft
    rw [hturn.unmarked] at hunmarked
    rw [hturn.frame.key] at hpending
    exact hturn.heardBut_self.mpr
      (h.awaiting_turn hcall hturn hcall hunmarked (hturn.early hearly) hpending hother hleft)

/-- A call that has not looked for the mark is put in. -/
theorem Announcing.begin (hmarked : (s.put i (s.bus, call)).Marked) (hknown : call.Known s.bus)
    (hphase : call.phase = .called) (hunmarked : call.unmarked = (s.bus.pending call.key).isNone) :
    (s.put i (s.bus, call)).Announcing where
  sound := ⟨h.sound.bus, forall_calls_put_iff.mpr
    ⟨fun _ hsending => (by rw [hphase] at hsending; cases hsending),
      fun j other _ => h.sound.sends j other⟩⟩
  marked := hmarked
  known := forall_calls_put_iff.mpr ⟨hknown, fun j other _ => h.known j other⟩
  heard := by
    refine forall_calls_put_iff.mpr ⟨?_, fun j other _ => h.heard j other⟩
    intro _ rest hleft
    rw [hphase] at hleft
    cases hleft
  awaiting := by
    refine forall_calls_put_iff.mpr ⟨?_, ?_⟩
    · intro hnew _ j other hpending
      rw [hunmarked] at hnew
      cases (Option.isNone_iff_eq_none.mp hnew).symm.trans hpending
    · intro b waiter _ hwaiter hold hearly j other hpending hother rest hleft
      rcases Entries.update_cases hother with ⟨rfl, rfl⟩ | ⟨-, hother⟩
      · rw [hphase] at hleft
        cases hleft
      · exact h.awaiting b waiter hwaiter hold hearly j other hpending hother rest hleft

/-- A step of a subscriber. -/
theorem Announcing.of_bus {b' : Bus}
    (hsound : ({ s with bus := b' } : System).Sound) (hpending : b'.pending = s.bus.pending)
    (hknown : ∀ call : Call, call.Known s.bus → call.Known b')
    (hheard : ∀ (call : Call) rest, call.Known s.bus → call.HeardBut s.bus rest →
      call.HeardBut b' rest) : ({ s with bus := b' } : System).Announcing where
  sound := hsound
  marked := h.marked.of_bus hpending
  known i call hcall := hknown call (h.known i call hcall)
  heard i call hcall hmethod rest hleft :=
    hheard call rest (h.known i call hcall) (h.heard i call hcall hmethod rest hleft)
  awaiting i call hcall hunmarked hearly j other hj hother rest hleft :=
    hheard call rest (h.known i call hcall)
      (h.awaiting i call hcall hunmarked hearly j other (hpending ▸ hj) hother rest hleft)

theorem Announcing.step {a : Action}
    (ha : s.Merges Late a) (hstep : step s a = some s') : s'.Announcing := by
  have hsound := h.sound.step hstep
  have hmarked := h.marked.step hstep
  cases moves_of_step hstep with
  | call i method key opts hfresh =>
    refine h.begin hmarked ?_ rfl rfl
    exact fun ch hch => ⟨(h.sound.bus.opened key ch hch).1, Nat.le_refl _⟩
  | cancel i call hcall =>
    refine ⟨hsound, hmarked, ?_, ?_, ?_⟩
    · exact forall_calls_put_iff.mpr ⟨h.known i call hcall, fun j other _ => h.known j other⟩
    · exact forall_calls_put_iff.mpr ⟨h.heard i call hcall, fun j other _ => h.heard j other⟩
    · -- only the contexts of the calls have changed
      have hold : ∀ b waiter, s.calls b = some waiter → waiter.unmarked = true →
          waiter.phase.Early → ∀ j other, s.bus.pending waiter.key = some j →
          (s.put i (s.bus, { call with canceled := true })).calls j = some other →
          ∀ rest, other.phase.left = some rest → waiter.HeardBut s.bus rest := by
        intro b waiter hwaiter hunmarked hearly j other hpending hother
        rcases Entries.update_cases hother with ⟨rfl, rfl⟩ | ⟨-, hother⟩
        · exact h.awaiting b waiter hwaiter hunmarked hearly j call hpending hcall
        · exact h.awaiting b waiter hwaiter hunmarked hearly j other hpending hother
      exact forall_calls_put_iff.mpr ⟨hold i call hcall, fun b waiter _ => hold b waiter⟩
  | advance i call r hcall hturn =>
    exact h.turn hcall hturn (h.heard_of_late hcall ha)
  | abort i call rest hcall hphase hcanceled =>
    refine h.turn hcall (.stopped rest hphase hcanceled) fun _ hchecked => ?_
    rw [hphase] at hchecked
    cases hchecked
  | subscribe key =>
    exact h.of_bus hsound rfl (fun _ hknown => hknown.subscribe key)
      fun _ _ hknown hheard => hheard.subscribe hknown key
  | unsubscribe key ch =>
    exact h.of_bus hsound (s.bus.pending_unsubscribe key ch)
      (fun _ hknown => hknown.unsubscribe key ch)
      fun _ _ _ hheard => hheard.unsubscribe h.sound.bus key ch
  | receive ch q hreceive =>
    refine h.of_bus hsound ?_ (fun _ hknown => hknown.receive hreceive)
      fun _ _ hknown hheard => hheard.receive hknown hreceive
    obtain ⟨event, -, rfl⟩ := Option.map_eq_some_iff.mp hreceive
    rfl

end

theorem announcing_new : new.Announcing where
  sound := sound_new
  marked := by rintro _ _ ⟨⟩
  known := by rintro _ _ ⟨⟩
  heard := by rintro _ _ ⟨⟩
  awaiting := by rintro _ _ ⟨⟩

/-- In every run in which a publish is merged only into a call that has set
the mark since that publish began and has been through its channels: when a
call of `Publish` has returned nil, every channel that has been subscribed to
its key since it began has received an event since then or has one
buffered. -/
theorem publish_heard_of_late (steps : List Action) (s : System)
    (hrun : Machine.run System.step new steps = some s)
    (hlate : Machine.AllSteps System.step (Merges Late) new steps) : s.AllHeard := by
  have h : s.Announcing := Machine.run_invariant_of_allSteps System.step
    (fun _ _ _ ht ha hstep => .step ht ha hstep) hrun hlate announcing_new
  exact h.allHeard

/-- Two subscribers and two publishes.  The first publish has sent to the
first subscriber, who takes the event, when the second publish begins and is
merged; then the first one goes on. -/
def consumedBefore : List Action :=
  [.subscribe "k", .subscribe "k", .call 0 .publish "k" [], .advance 0,
    .advance 0, .advance 0, .advance 0, .receive 0,
    .call 1 .publish "k" [], .advance 1, .advance 1,
    .advance 0, .advance 0, .advance 0]

/-- Both publishes have returned nil.  The first subscriber had received one
event when the second publish began, has received no other since, and none is
buffered. -/
theorem lost_consumedBefore : ((Machine.run System.step new consumedBefore).map fun s =>
        ((s.calls 0).map Call.phase, (s.calls 1).map Call.phase)) =
          some (some (.returned none), some (.returned none)) ∧
      ((Machine.run System.step new consumedBefore).map fun s =>
        ((s.calls 1).map fun call => (call.audience, call.seen 0),
          s.bus.subs "k", (s.bus.chans 0).received,
          (s.bus.chans 0).buffer.isSome)) =
        some (some ([0, 1], 1), [0, 1], 1, false) := by
  decide

/-- The second publish begins before the first one sets the mark, and finds it
when the first one has sent to both subscribers, one of which has taken the
event. -/
def mergedLate : List Action :=
  [.subscribe "k", .subscribe "k", .call 0 .publish "k" [], .call 1 .publish "k" [],
    .advance 0, .advance 1, .advance 0, .advance 0, .advance 0, .advance 0, .receive 0,
    .advance 1]

theorem allHeard_mergedLate : ∃ t, Machine.run System.step new mergedLate = some t ∧ t.AllHeard ∧
      (t.calls 1).map (fun call => (call.phase, call.mergedInto)) = some (.returned none, some 0) :=
  ⟨_, rfl, publish_heard_of_late mergedLate _ rfl (by decide), rfl⟩

end System

/-! ## PublishAndAwait -/

def Bus.Distinct (b : Bus) (key : Key) (chs : List ℕ) : Prop :=
  chs.Nodup ∧ ∀ ch ∈ chs, ch < b.nextChan ∧ (b.chans ch).topic = key

namespace Bus.Distinct

variable {b : Bus} {key : Key} {chs : List ℕ}

theorem nil : b.Distinct key [] := ⟨List.nodup_nil, fun _ h => by cases h⟩

theorem subs (h : b.Sound) (key : Key) : b.Distinct key (b.subs key) :=
  ⟨h.nodup key, fun ch hch => ⟨(h.opened key ch hch).1, (h.opened key ch hch).2.2⟩⟩

theorem sublist (h : b.Distinct key chs) {chs' : List ℕ}
    (hsub : chs'.Sublist chs) : b.Distinct key chs' :=
  ⟨h.1.sublist hsub, fun ch hch => h.2 ch (hsub.subset hch)⟩

theorem congr {b' : Bus} (h : b.Distinct key chs) (hnext : b.nextChan ≤ b'.nextChan)
    (htopic : ∀ ch < b.nextChan, (b'.chans ch).topic = (b.chans ch).topic) :
    b'.Distinct key chs := by
  refine ⟨h.1, fun ch hch => ?_⟩
  obtain ⟨hlt, hkey⟩ := h.2 ch hch
  exact ⟨Nat.lt_of_lt_of_le hlt hnext, (htopic ch hlt).trans hkey⟩

end Bus.Distinct

namespace Call

/-- What a call has counted, by its phase. -/
def Counts (b : Bus) (call : Call) : Prop :=
  match call.phase with
  | .called => call.handed = [] ∧ call.mergedInto = none
  | .checked => call.handed = [] ∧ call.mergedInto = none
  | .marked => call.handed = [] ∧ call.mergedInto = none
  | .sending rest =>
    call.mergedInto = none ∧ b.Distinct call.key (call.handed ++ rest)
  | .clearing err =>
    call.mergedInto = none ∧ b.Distinct call.key call.handed ∧
      (err = none → call.method.replicas ≤ call.handed.length)
  | .returned err =>
    b.Distinct call.key call.handed ∧ (call.mergedInto ≠ none → call.handed = []) ∧
      (err = none → call.mergedInto = none → call.method.replicas ≤ call.handed.length)

theorem Counts.congr {b b' : Bus} {call : Call} (h : call.Counts b)
    (hnext : b.nextChan ≤ b'.nextChan)
    (htopic : ∀ ch < b.nextChan, (b'.chans ch).topic = (b.chans ch).topic) :
    call.Counts b' := by
  rw [Counts] at h ⊢
  cases hphase : call.phase with
  | called | checked | marked => rwa [hphase] at h
  | sending rest =>
    rw [hphase] at h
    exact ⟨h.1, h.2.congr hnext htopic⟩
  | clearing err =>
    rw [hphase] at h
    exact ⟨h.1, h.2.1.congr hnext htopic, h.2.2⟩
  | returned err =>
    rw [hphase] at h
    exact ⟨h.1.congr hnext htopic, h.2⟩

end Call

namespace Turn

variable {b : Bus} {i : ℕ} {call : Call} {r : Bus × Call}

theorem replicas_of_refused (h : call.refused b = some none) : call.method.replicas = 0 := by
  rw [Call.refused] at h
  split at h
  · rename_i hmethod
    rw [hmethod]
    rfl
  · cases (Option.ite_none_right_eq_some.mp h).2

theorem counts (h : Turn b i call r) (hbus : b.Sound) (hc : call.Counts b) : r.2.Counts r.1 := by
  rw [Call.Counts] at hc
  cases h with
  | rejected hphase =>
    rw [hphase] at hc
    refine ⟨?_, fun _ => hc.1, fun h => by cases h⟩
    simpa only [hc.1] using Bus.Distinct.nil
  | checked hphase | marked hphase =>
    rw [hphase] at hc
    exact hc
  | merged j hphase =>
    rw [hphase] at hc
    refine ⟨?_, fun _ => hc.1, fun _ h => by cases h⟩
    simpa only [hc.1] using Bus.Distinct.nil
  | refused err hphase hrefused =>
    rw [hphase] at hc
    refine ⟨hc.2, ?_, ?_⟩
    · simpa only [hc.1] using Bus.Distinct.nil
    · rintro rfl
      dsimp only
      rw [replicas_of_refused hrefused]
      exact Int.natCast_nonneg _
  | entered hphase =>
    rw [hphase] at hc
    refine ⟨hc.2, ?_⟩
    dsimp only
    rw [hc.1]
    exact .subs hbus call.key
  | panicked ch rest hphase | skipped ch rest hphase =>
    rw [hphase] at hc
    exact ⟨hc.1, hc.2.sublist ((List.sublist_cons_self ch rest).append_left _)⟩
  | sent ch rest hphase =>
    rw [hphase] at hc
    refine ⟨hc.1, ?_⟩
    dsimp only
    rw [List.append_assoc, List.singleton_append]
    refine hc.2.congr (Nat.le_refl _) fun c _ => ?_
    by_cases hch : c = ch <;> simp [hch]
  | stopped rest hphase =>
    rw [hphase] at hc
    exact ⟨hc.1, hc.2.sublist (List.sublist_append_left _ rest), fun h => by cases h⟩
  | unsatisfied hphase =>
    rw [hphase] at hc
    exact ⟨hc.1, hc.2.sublist (List.sublist_append_left _ []), fun h => by cases h⟩
  | finished published hphase hquorum =>
    rw [hphase] at hc
    exact ⟨hc.1, hc.2.sublist (List.sublist_append_left _ []), fun _ => hquorum⟩
  | cleared err hphase =>
    rw [hphase] at hc
    exact ⟨hc.2.1, fun h => absurd hc.1 h, fun herr _ => hc.2.2 herr⟩

theorem mergedInto_eq (h : Turn b i call r) : r.2.mergedInto = call.mergedInto ∨
      ∃ j, r.2.mergedInto = some j ∧ call.phase = .checked ∧ b.pending call.key = some j := by
  cases h with
  | merged j hphase hpending => exact .inr ⟨j, rfl, hphase, hpending⟩
  | _ => exact .inl rfl

theorem handed_le (h : Turn b i call r) : call.handed.length ≤ r.2.handed.length := by
  cases h with
  | sent => simp
  | _ => exact Nat.le_refl _

end Turn

namespace System

/-- Call `j` is for the key and has sent to at least `n` channels. -/
def Calls (s : System) (key : Key) (n : ℤ) (j : ℕ) : Prop :=
  ∃ other, s.calls j = some other ∧ other.key = key ∧ n ≤ other.handed.length

/-- The invariant of the counts: each call has counted what it has sent, marks
point to calls for their key, and merged calls to calls for the same key that
have sent to as many channels as they were asked for. -/
structure Counting (s : System) : Prop where
  sound : s.Sound
  calls : ∀ i call, s.calls i = some call → call.Counts s.bus
  pending : ∀ key j, s.bus.pending key = some j → s.Calls key 0 j
  merged : ∀ i call, s.calls i = some call → ∀ j, call.mergedInto = some j →
    s.Calls call.key call.method.replicas j

/-- The call that has set the mark has sent to as many channels by then as the
merged one was asked for. -/
def Quorate (call marker : Call) : Prop := call.method.replicas ≤ marker.handed.length

instance (call marker : Call) : Decidable (Quorate call marker) :=
  inferInstanceAs (Decidable (_ ≤ _))

variable {s s' : System}

theorem Calls.put {key : Key} {n : ℤ} {j : ℕ} (h : s.Calls key n j) {i : ℕ}
    {r : Bus × Call} (hkept : ∀ call, s.calls i = some call →
      r.2.key = call.key ∧ call.handed.length ≤ r.2.handed.length) :
    (s.put i r).Calls key n j := by
  obtain ⟨other, hother, rfl, hn⟩ := h
  by_cases hj : j = i
  · subst hj
    obtain ⟨hkey, hle⟩ := hkept other hother
    exact ⟨r.2, calls_put_self s j r, hkey, hn.trans (Int.ofNat_le.mpr hle)⟩
  · exact ⟨other, (calls_put_of_ne s hj r).trans hother, rfl, hn⟩

theorem Counting.turn (h : s.Counting) {i : ℕ} {call : Call}
    {r : Bus × Call} (hcall : s.calls i = some call) (hturn : Turn s.bus i call r)
    (hmerged : call.phase = .checked → ∀ j, s.bus.pending call.key = some j →
      s.Calls call.key call.method.replicas j) : (s.put i r).Counting := by
  have hkept : ∀ call', s.calls i = some call' →
      r.2.key = call'.key ∧ call'.handed.length ≤ r.2.handed.length := by
    intro call' hcall'
    obtain rfl := Option.mem_unique hcall hcall'
    exact ⟨hturn.frame.key, hturn.handed_le⟩
  constructor
  · exact h.sound.turn hcall hturn
  · refine forall_calls_put_iff.mpr ⟨hturn.counts h.sound.bus (h.calls i call hcall), ?_⟩
    intro j other _ hother
    exact (h.calls j other hother).congr (Nat.le_of_eq hturn.frame.nextChan.symm)
      fun ch _ => hturn.frame.topic ch
  · intro key j hj
    rcases hturn.pending_eq key with hsame | hnone | ⟨rfl, hset, -⟩
    · exact (h.pending key j (hsame ▸ hj)).put hkept
    · exact absurd (hnone.symm.trans hj).symm (Option.some_ne_none j)
    · obtain rfl := Option.mem_unique hset hj
      exact ⟨r.2, calls_put_self s i r, hturn.frame.key, Int.natCast_nonneg _⟩
  · refine forall_calls_put_iff.mpr ⟨?_, fun k other _ hother j hj =>
      (h.merged k other hother j hj).put hkept⟩
    intro j hj
    rw [hturn.frame.key, hturn.frame.method]
    rcases hturn.mergedInto_eq with hsame | ⟨j', hj', hphase, hpending⟩
    · exact (h.merged i call hcall j (hsame ▸ hj)).put hkept
    · obtain rfl := Option.mem_unique hj' hj
      exact (hmerged hphase j' hpending).put hkept

theorem Counting.of_bus (h : s.Counting) {b' : Bus} (hsound : ({ s with bus := b' } : System).Sound)
    (hnext : s.bus.nextChan ≤ b'.nextChan)
    (htopic : ∀ ch < s.bus.nextChan, (b'.chans ch).topic = (s.bus.chans ch).topic)
    (hpending : b'.pending = s.bus.pending) :
    ({ s with bus := b' } : System).Counting where
  sound := hsound
  calls i call hcall := (h.calls i call hcall).congr hnext htopic
  pending key j hj := by
    obtain ⟨other, hother⟩ := h.pending key j (hpending ▸ hj)
    exact ⟨other, hother⟩
  merged i call hcall j hj := by
    obtain ⟨other, hother⟩ := h.merged i call hcall j hj
    exact ⟨other, hother⟩

theorem Counting.call (h : s.Counting) {i : ℕ} {call : Call} (hfresh : ∀ old, s.calls i = some old →
      call.key = old.key ∧ old.handed.length ≤ call.handed.length)
    (hsends : call.Sends s.bus i) (hcounts : call.Counts s.bus)
    (hmerged : ∀ j, call.mergedInto = some j → s.Calls call.key call.method.replicas j) :
    (s.put i (s.bus, call)).Counting where
  sound := ⟨h.sound.bus, forall_calls_put_iff.mpr ⟨hsends, fun j other _ => h.sound.sends j other⟩⟩
  calls := forall_calls_put_iff.mpr ⟨hcounts, fun j other _ => h.calls j other⟩
  pending key j hj := (h.pending key j hj).put hfresh
  merged := forall_calls_put_iff.mpr ⟨fun j hj => (hmerged j hj).put hfresh,
      fun k other _ hother j hj => (h.merged k other hother j hj).put hfresh⟩

theorem Counting.step (h : s.Counting) {a : Action} (ha : s.Merges Quorate a)
    (hstep : step s a = some s') : s'.Counting := by
  have hsound := h.sound.step hstep
  cases moves_of_step hstep with
  | call i method key opts hfresh =>
    refine h.call ?_ (fun _ hphase => by cases hphase) ⟨rfl, rfl⟩ fun _ hj => by cases hj
    intro old hold
    exact absurd (hfresh.symm.trans hold).symm (Option.some_ne_none old)
  | cancel i call hcall =>
    refine h.call ?_ (h.sound.sends i call hcall) (h.calls i call hcall) (h.merged i call hcall)
    intro old hold
    obtain rfl := Option.mem_unique hcall hold
    exact ⟨rfl, Nat.le_refl _⟩
  | advance i call r hcall hturn =>
    refine h.turn hcall hturn fun hphase j hj => ?_
    obtain ⟨other, hother, hkey, -⟩ := h.pending call.key j hj
    exact ⟨other, hother, hkey, ha call hcall hphase j hj other hother⟩
  | abort i call rest hcall hphase hcanceled =>
    refine h.turn hcall (.stopped rest hphase hcanceled) fun hchecked => ?_
    rw [hphase] at hchecked
    cases hchecked
  | subscribe key =>
    refine h.of_bus hsound (Nat.le_succ _) (fun ch hch => ?_) rfl
    simp [Bus.subscribe, Nat.ne_of_lt hch]
  | unsubscribe key c =>
    by_cases hmem : c ∈ s.bus.subs key
    · rw [Bus.unsubscribe, if_pos hmem] at hsound ⊢
      refine h.of_bus hsound (Nat.le_refl _) (fun ch _ => ?_) rfl
      by_cases hch : ch = c <;> simp [hch]
    · rw [Bus.unsubscribe, if_neg hmem]
      exact h
  | receive c q hreceive =>
    obtain ⟨event, -, rfl⟩ := Option.map_eq_some_iff.mp hreceive
    refine h.of_bus hsound (Nat.le_refl _) (fun ch _ => ?_) rfl
    by_cases hch : ch = c <;> simp [hch]

theorem counting_of_run {steps : List Action} (hrun : Machine.run System.step new steps = some s)
    (hmerges : Machine.AllSteps System.step (Merges Quorate) new steps) : s.Counting := by
  refine Machine.run_invariant_of_allSteps System.step
    (fun _ _ _ h ha hstep => .step h ha hstep) hrun hmerges ?_
  constructor
  · exact sound_new
  · rintro _ _ ⟨⟩
  · rintro _ _ ⟨⟩
  · rintro _ _ ⟨⟩

/-- The call has sent to at least `n` distinct channels of its key. -/
def HandedTo (s : System) (call : Call) (n : ℤ) : Prop :=
  call.handed.Nodup ∧ (∀ ch ∈ call.handed,
    ch < s.bus.nextChan ∧ (s.bus.chans ch).topic = call.key) ∧
    n ≤ call.handed.length

theorem Counting.distinct (h : s.Counting) {i : ℕ} {call : Call} (hcall : s.calls i = some call) :
    s.bus.Distinct call.key call.handed := by
  have hc := h.calls i call hcall
  rw [Call.Counts] at hc
  split at hc
  · rw [hc.1]
    exact .nil
  · rw [hc.1]
    exact .nil
  · rw [hc.1]
    exact .nil
  · exact hc.2.sublist (List.sublist_append_left _ _)
  · exact hc.2.1
  · exact hc.1

/-- In every run in which a call is merged only into one that has sent to
enough channels by then, a `PublishAndAwait` that returned nil sent to as many
distinct channels of its key as it was asked for, or was merged into a call
for the key that did. -/
theorem quorum_handed_of_quorate (steps : List Action) (s : System)
    (hrun : Machine.run System.step new steps = some s)
    (hmerges : Machine.AllSteps System.step (Merges Quorate) new steps)
    (i : ℕ) (call : Call) (replicas : ℤ) (hcall : s.calls i = some call)
    (hmethod : call.method = .publishAndAwait replicas)
    (hpos : 1 ≤ replicas) (hreturned : call.phase = .returned none) :
    s.HandedTo call replicas ∨ ∃ j other, call.mergedInto = some j ∧
        s.calls j = some other ∧ other.key = call.key ∧
        s.HandedTo other replicas := by
  have hs := counting_of_run hrun hmerges
  have hc := hs.calls i call hcall
  rw [Call.Counts, hreturned] at hc
  obtain ⟨hdistinct, -, hquorum⟩ := hc
  have hreplicas : call.method.replicas = replicas := by
    rw [hmethod, Method.replicas, if_neg (by omega)]
  cases hmerged : call.mergedInto with
  | none => exact .inl ⟨hdistinct.1, hdistinct.2, hreplicas ▸ hquorum rfl hmerged⟩
  | some j =>
    obtain ⟨other, hother, hkey, hlen⟩ := hs.merged i call hcall j hmerged
    obtain ⟨hnodup, htopic⟩ := hs.distinct hother
    exact .inr ⟨j, other, rfl, hother, hkey, hnodup, htopic, hreplicas ▸ hlen⟩

/-- A publish to nobody has set the mark when a `PublishAndAwait` begins. -/
def mergedIntoNobody : List Action :=
  [.call 0 .publish "k" [], .advance 0, .advance 0,
    .call 1 (.publishAndAwait 1) "k" [], .advance 1, .advance 1,
    .advance 0, .advance 0]

/-- `PublishAndAwait` for one replica returns nil while there is no channel at
all. -/
theorem unreal_quorum_mergedIntoNobody :
    (Machine.run System.step new mergedIntoNobody).map (fun s =>
      ((s.calls 1).map fun call =>
        (call.phase, call.mergedInto, call.handed),
        (s.calls 0).map Call.handed, s.bus.nextChan)) =
      some (some (.returned none, some 0, []), some [], 0) := by
  decide

/-- Two calls of `PublishAndAwait` for two replicas with two subscribers.  The
second one finds the mark when the first one has sent to both. -/
def mergedIntoQuorum : List Action :=
  [.subscribe "k", .subscribe "k", .call 0 (.publishAndAwait 2) "k" [],
    .advance 0, .advance 0, .advance 0, .advance 0, .advance 0,
    .call 1 (.publishAndAwait 2) "k" [], .advance 1, .advance 1]

theorem quorum_handed_mergedIntoQuorum :
    ∃ s call other, Machine.run System.step new mergedIntoQuorum = some s ∧
      s.calls 1 = some call ∧ call.phase = .returned none ∧ call.mergedInto = some 0 ∧
      s.calls 0 = some other ∧ s.HandedTo other 2 := by
  refine ⟨_, _, _, rfl, rfl, rfl, rfl, rfl, ?_⟩
  rcases quorum_handed_of_quorate mergedIntoQuorum _ rfl (by decide) 1 _ 2 rfl rfl
    (by decide) rfl with ⟨-, -, hlen⟩ | ⟨j, other, hj, hother, -, hhanded⟩
  · exact absurd hlen (by decide)
  · cases hj
    cases hother
    exact hhanded

end System

end GoWarp.SyncBus
