import GoWarp.StreamBus.Traffic

/-!
# Resuming next to concurrent publishers

A client that resumes gives the largest number it has received.  Numbers are
given out before frames are added to the journal and are delivered by
priority, so a smaller number may belong to a frame the client has not
received.  The frames it misses in the end are exactly those that, when it
resumes, are in no position to be replayed.
-/

namespace GoWarp.StreamBus

open Support

namespace InMemory

theorem full_of_enqueueTo {b b' : InMemory} {frame : Frame} {id : ℕ}
    {e : BusError} (h : b.enqueueTo frame id = (some e, b')) :
    ∃ sub, b.subs id = some sub ∧ sub.closed = false ∧ sub.queue.len = sub.queue.capacity := by
  rw [enqueueTo] at h
  rcases hsub : b.subs id with _ | sub
  · rw [hsub] at h
    cases h
  · rw [hsub] at h
    dsimp only at h
    refine ⟨sub, rfl, ?_⟩
    rcases hres : sub.enqueue frame with _ | sub' | _
    · rw [hres] at h
      cases h
    · rw [hres] at h
      cases h
    · rw [Subscription.enqueue] at hres
      split at hres
      · cases hres
      next hclosed =>
        rcases hpush : sub.queue.push frame with _ | q
        · exact ⟨Bool.eq_false_of_not_eq_true hclosed, FrameQueue.push_eq_none_iff.mp hpush⟩
        · rw [hpush] at hres
          cases hres

theorem enqueuedCount_lt {b b' : InMemory} (hb : b.Registered)
    {frame : Frame} {id : ℕ} (h : b.enqueueTo frame id = (none, b'))
    {sub : Subscription} (hsub : b.subs id = some sub) (hopen : sub.closed = false)
    (hroom : sub.queue.len < sub.queue.capacity) :
    Traffic.enqueuedCount b id < Traffic.enqueuedCount b' id := by
  have hsub' := subs_enqueueTo hb h id
  have hoffered : (sub.offered frame).enqueued = sub.enqueued + 1 := by
    rw [Subscription.offered, Subscription.enqueue, hopen,
      if_neg Bool.false_ne_true]
    rcases hpush : sub.queue.push frame with _ | q
    · have hfull := FrameQueue.push_eq_none_iff.mp hpush
      omega
    · rfl
  rw [if_pos rfl, hsub, Option.map_some] at hsub'
  rw [Traffic.enqueuedCount, Traffic.enqueuedCount, hsub, hsub',
    Option.map_some, Option.map_some, Option.getD_some, Option.getD_some,
    hoffered]
  exact Nat.lt_succ_self _

theorem mem_targets_of_isOpen {b : InMemory} (hb : b.Registered) {id : ℕ}
    {topic : Bytes} (h : b.IsOpen id false topic) : id ∈ b.targets topic := by
  rw [mem_targets_iff]
  exact .inl ((hb.mem_ids false topic id).mpr h)

theorem IsOpen.of_closeSub {b : InMemory} (hb : b.Registered) {id id' : ℕ}
    {p : Bool} {topic : Bytes} (h : (b.closeSub id').IsOpen id p topic) :
    b.IsOpen id p topic := by
  have hmem := ((hb.closeSub id').mem_ids p topic id).mpr h
  rw [mem_ids_closeSub hb] at hmem
  exact (hb.mem_ids p topic id).mp hmem.2

end InMemory

namespace Traffic

variable {s s' : Traffic}

/-- A subscription that is still open has room for the frame enqueued to it
next. -/
def Roomy (s : Traffic) : Action → Prop
  | .enqueue i => ∀ frame id rest sub,
      s.calls i = some (.sending frame (id :: rest)) →
      s.bus.subs id = some sub → sub.closed = false →
      sub.queue.len < sub.queue.capacity
  | _ => True

/-! ## Following a subscription -/

/-- Since the subscription began with the frames `first`, the frames `later`
have been added to journals after the frames `old`.  What has entered its queue
is one of the first or of the later frames; and while it is open, a later frame
of the topic has entered it or is about to. -/
structure Tracks (old first : List Frame) (id : ℕ) (topic : Bytes)
    (s : Traffic) (later : List Frame) : Prop where
  le : id ≤ s.bus.subSeq
  journaled : s.journaled = old ++ later
  preloaded : ∀ frame ∈ first, frame ∈ s.entered id
  entered : ∀ frame ∈ s.entered id, frame ∈ first ∨ frame ∈ later
  pending : ∀ i frame targets, s.calls i = some (.sending frame targets) →
    id ∈ targets → frame ∈ later
  live : s.bus.IsOpen id false topic → ∀ frame ∈ later, frame.topic = topic → frame ∈ s.entered id ∨
      ∃ i targets, s.calls i = some (.sending frame targets) ∧ id ∈ targets

section Tracks

variable {old first later : List Frame} {id : ℕ} {topic : Bytes}

section

variable (h : Tracks old first id topic s later)
include h

theorem Tracks.of_quiet (hle : s.bus.subSeq ≤ s'.bus.subSeq)
    (hjournaled : s'.journaled = s.journaled) (hentered : s'.entered id = s.entered id)
    (hcalls : ∀ i frame targets, id ∈ targets → (s'.calls i = some (.sending frame targets) ↔
        s.calls i = some (.sending frame targets)))
    (hopen : s'.bus.IsOpen id false topic → s.bus.IsOpen id false topic) :
    Tracks old first id topic s' later := by
  refine ⟨h.le.trans hle, hjournaled.trans h.journaled, ?_, ?_, ?_, ?_⟩
  · rw [hentered]
    exact h.preloaded
  · rw [hentered]
    exact h.entered
  · intro i frame targets hcall hid
    exact h.pending i frame targets ((hcalls i frame targets hid).mp hcall) hid
  · intro hopen' frame hframe htopic
    rw [hentered]
    rcases h.live (hopen hopen') frame hframe htopic with
      hmem | ⟨i, targets, hcall, hid⟩
    · exact .inl hmem
    · exact .inr ⟨i, targets, (hcalls i frame targets hid).mpr hcall, hid⟩

theorem Tracks.goto {i : ℕ} {call : Option Call}
    (hfrom : ∀ frame targets, id ∈ targets → s.calls i ≠ some (.sending frame targets))
    (hto : ∀ frame targets, id ∈ targets → call ≠ some (.sending frame targets)) :
    Tracks old first id topic (s.goto i call) later := by
  refine h.of_quiet (Nat.le_refl _) rfl rfl ?_ fun hopen => hopen
  intro j frame targets hid
  rw [calls_goto]
  split
  next hj =>
    rw [hj]
    exact iff_of_false (hto frame targets hid) (hfrom frame targets hid)
  · rfl

theorem Tracks.onBus {b : InMemory} (hle : s.bus.subSeq ≤ b.subSeq)
    (hopen : b.IsOpen id false topic → s.bus.IsOpen id false topic) :
    Tracks old first id topic (s.onBus b) later :=
  h.of_quiet hle rfl rfl (fun _ _ _ _ => .rfl) hopen

theorem Tracks.journal (hs : s.Sound) {i : ℕ} {frame : Frame}
    (hcall : s.calls i = some (.numbered frame)) {order : List ℕ}
    (horder : InMemory.IsOrderOf order (s.bus.targets frame.topic)) :
    Tracks old first id topic (s.routed i frame order (s.bus.addToJournal frame))
      (later ++ [frame]) := by
  have hsame := s.bus.sameTable_addToJournal frame
  have hother : ∀ j frame' targets, s.calls j = some (.sending frame' targets) → j ≠ i := by
    rintro j frame' targets hj rfl
    rw [hcall] at hj
    cases hj
  refine ⟨h.le.trans hsame.subSeq, ?_, h.preloaded, ?_, ?_, ?_⟩
  · rw [journaled_routed, h.journaled, List.append_assoc]
  · intro f hf
    exact (h.entered f hf).imp_right (List.mem_append_left _)
  · intro j frame' targets hj hid
    rw [calls_routed] at hj
    split at hj
    · cases hj
      exact List.mem_append_right _ (List.mem_singleton_self _)
    · exact List.mem_append_left _ (h.pending j frame' targets hj hid)
  · intro hopen f hf htopic
    have hopen' := (hsame.isOpen_iff id false topic).mp hopen
    rcases List.mem_append.mp hf with hf | hf
    · rcases h.live hopen' f hf htopic with hmem | ⟨j, targets, hj, hid⟩
      · exact .inl hmem
      · refine .inr ⟨j, targets, ?_, hid⟩
        rw [calls_routed, if_neg (hother j f targets hj)]
        exact hj
    · obtain rfl := List.mem_singleton.mp hf
      have htarget := InMemory.mem_targets_of_isOpen hs.registered hopen'
      rw [← htopic, ← horder.2, List.mem_toFinset] at htarget
      refine .inr ⟨i, order, ?_, htarget⟩
      rw [calls_routed, if_pos rfl]

end

theorem mem_entered_sent {i id' : ℕ} {frame f : Frame} {rest : List ℕ} {b : InMemory} :
    f ∈ (s.sent i frame id' rest b).entered id ↔ f ∈ s.entered id ∨ f = frame ∧ id = id' ∧
        enqueuedCount s.bus id' < enqueuedCount b id' := by
  rw [sent, entered_setEntered]
  by_cases heq : id = id'
  · subst heq
    rw [if_pos rfl]
    split
    next hlt => simp [hlt]
    next hlt => simp [hlt]
  · rw [if_neg heq]
    exact ⟨.inl, fun h => h.resolve_right fun h => heq h.2.1⟩

section

variable (h : Tracks old first id topic s later)
include h

theorem Tracks.enqueue (hs : s.Sound) {i : ℕ} {frame : Frame} {id' : ℕ} {rest : List ℕ}
    (hcall : s.calls i = some (.sending frame (id' :: rest)))
    (hroom : s.Roomy (.enqueue i)) {b : InMemory} (hres : s.bus.enqueueTo frame id' = (none, b)) :
    Tracks old first id topic (s.sent i frame id' rest b) later := by
  have hsame := InMemory.sameTable_enqueueTo hs.registered frame id'
  rw [hres] at hsame
  refine ⟨h.le.trans hsame.subSeq, h.journaled, ?_, ?_, ?_, ?_⟩
  · intro f hf
    exact mem_entered_sent.mpr (.inl (h.preloaded f hf))
  · intro f hf
    rcases mem_entered_sent.mp hf with hf | ⟨rfl, rfl, _⟩
    · exact h.entered f hf
    · exact .inr (h.pending i f _ hcall List.mem_cons_self)
  · intro j frame' targets hj hid
    rw [calls_sent] at hj
    split at hj
    · cases hj
      exact h.pending i frame _ hcall (List.mem_cons_of_mem _ hid)
    · exact h.pending j frame' targets hj hid
  · intro hopen f hf htopic
    have hopen' := (hsame.isOpen_iff id false topic).mp hopen
    rcases h.live hopen' f hf htopic with hmem | ⟨j, targets, hj, hid⟩
    · exact .inl (mem_entered_sent.mpr (.inl hmem))
    · by_cases hji : j = i
      · rw [hji, hcall] at hj
        cases hj
        rcases List.mem_cons.mp hid with rfl | hid
        · obtain ⟨sub, hsub, hclosed, _⟩ := hopen'
          have hlt := InMemory.enqueuedCount_lt hs.registered hres hsub
            hclosed (hroom frame id rest sub hcall hsub hclosed)
          exact .inl (mem_entered_sent.mpr (.inr ⟨rfl, rfl, hlt⟩))
        · refine .inr ⟨i, rest, ?_, hid⟩
          rw [calls_sent, if_pos rfl]
      · refine .inr ⟨j, targets, ?_, hid⟩
        rw [calls_sent, if_neg hji]
        exact hj

theorem Tracks.subscribe {o : SubscribeOptions} (hstep : machine topic s (.subscribe o) = some s') :
    Tracks old first id topic s' later := by
  obtain ⟨hsubs, hle⟩ := s.bus.subs_subscribe_of_le false o h.le
  have hbus : Tracks old first id topic (s.onBus (s.bus.subscribe false o).2) later := by
    refine h.onBus hle fun hopen => ?_
    rw [InMemory.IsOpen, hsubs] at hopen
    exact hopen
  obtain ⟨_, _, ⟨e, b, hres, rfl⟩ | ⟨id', b, hres, rfl⟩⟩ := subscribeStep_eq_some hstep
  · rw [hres] at hbus
    exact hbus
  · have hne : id ≠ id' := by
      have hid' := (InMemory.subscribe_eq_ok hres).1
      have hle' := h.le
      omega
    rw [hres] at hbus
    refine hbus.of_quiet (Nat.le_refl _) rfl ?_ (fun _ _ _ _ => .rfl) fun hopen => hopen
    rw [entered_setEntered, if_neg hne]

theorem Tracks.step (hs : s.Sound) {action : Action} (hroom : s.Roomy action)
    (hstep : machine topic s action = some s') :
    ∃ later', Tracks old first id topic s' later' := by
  cases action with
  | number i now frame =>
    obtain ⟨hidle, rfl⟩ := numberStep_eq_some hstep
    have hbus : Tracks old first id topic (s.onBus s.bus.takeNumber) later :=
      h.onBus (Nat.le_refl _) fun hopen => hopen
    refine ⟨later, hbus.goto ?_ ?_⟩
    · intro frame' targets _ hcall
      exact absurd (hidle.symm.trans hcall) (by simp)
    · intro frame' targets _ hcall
      cases hcall
  | journal i order =>
    obtain ⟨frame, hcall, rfl | ⟨horder, rfl⟩⟩ := journalStep_eq_some hstep
    · refine ⟨later, h.goto ?_ ?_⟩
      · intro frame' targets _ hcall'
        exact absurd (hcall.symm.trans hcall') (by simp)
      · intro frame' targets _ hcall'
        cases hcall'
    · exact ⟨_, h.journal hs hcall horder⟩
  | enqueue i =>
    obtain ⟨frame, id', rest, hcall, ⟨e, hres, rfl⟩ | ⟨b, hres, rfl⟩⟩ := enqueueStep_eq_some hstep
    · obtain ⟨sub, hsub, hclosed, hfull⟩ := InMemory.full_of_enqueueTo hres
      have hlt := hroom frame id' rest sub hcall hsub hclosed
      omega
    · exact ⟨later, h.enqueue hs hcall hroom hres⟩
  | finish i =>
    obtain ⟨frame, hcall, rfl⟩ := finishStep_eq_some hstep
    refine ⟨later, h.goto ?_ ?_⟩
    · intro frame' targets hid hcall'
      cases hcall.symm.trans hcall'
      exact absurd hid List.not_mem_nil
    · intro frame' targets _ hcall'
      cases hcall'
  | subscribe o => exact ⟨later, h.subscribe hstep⟩
  | close id' =>
    cases hstep
    exact ⟨later, h.onBus (s.bus.closeSub_fields id').1.ge (.of_closeSub hs.registered)⟩
  | pump id' =>
    obtain ⟨sub', hpump, rfl⟩ := Option.map_eq_some_iff.mp hstep
    obtain ⟨sub, hsub, hsub'⟩ := Option.bind_eq_some_iff.mp hpump
    have hsame := InMemory.sameTable_setSub hs.registered hsub (Subscription.same_pump hsub')
    exact ⟨later, h.onBus hsame.subSeq (hsame.isOpen_iff _ _ _).mp⟩
  | receive id' =>
    obtain ⟨⟨frame, sub'⟩, hreceive, rfl⟩ := Option.map_eq_some_iff.mp hstep
    obtain ⟨sub, hsub, hsub'⟩ := Option.bind_eq_some_iff.mp hreceive
    have hsame := InMemory.sameTable_setSub hs.registered hsub (Subscription.same_receive hsub')
    exact ⟨later, h.of_quiet hsame.subSeq rfl rfl (fun _ _ _ _ => .rfl) (hsame.isOpen_iff _ _ _).mp⟩

end

theorem tracks_subscribe (hs : s.Sound) {o : SubscribeOptions}
    (hstep : machine topic s (.subscribe o) = some s')
    (hid : (s.bus.subscribe false o).1 = .ok id) :
    Tracks s.journaled (preloads s.bus o) id topic s' [] := by
  obtain ⟨_, _, ⟨e, b, hres, rfl⟩ | ⟨id', b, hres, rfl⟩⟩ := subscribeStep_eq_some hstep
  · rw [hres] at hid
    cases hid
  · rw [hres] at hid
    cases hid
    obtain ⟨hnew, options, frames, _, _, hb⟩ := InMemory.subscribe_eq_ok hres
    have hentered : ((s.onBus b).setEntered id
        (preloads s.bus o)).entered id = preloads s.bus o := by
      rw [entered_setEntered, if_pos rfl]
    have hsubSeq : b.subSeq = s.bus.subSeq + 1 := by
      rw [hb]
      exact (InMemory.subs_register _ _).2.1
    refine ⟨?_, (List.append_nil _).symm, ?_, ?_, ?_, ?_⟩
    · change id ≤ b.subSeq
      omega
    · rw [hentered]
      exact fun _ hframe => hframe
    · rw [hentered]
      exact fun _ hframe => .inl hframe
    · intro i frame targets hcall hid
      have hle := (hs.sending i frame targets hcall).2 id hid
      omega
    · intro _ frame hframe
      exact absurd hframe List.not_mem_nil

theorem tracks_run (hs : s.Sound) (h : Tracks old first id topic s later) {actions : List Action}
    (hrun : (machine topic).run s actions = some s')
    (hroom : (machine topic).AllSteps Roomy s actions) :
    s'.Sound ∧ ∃ later', Tracks old first id topic s' later' := by
  refine (machine topic).run_invariant_of_allSteps
    (I := fun s => s.Sound ∧ ∃ later, Tracks old first id topic s later)
    ?_ hrun hroom ⟨hs, later, h⟩
  rintro s action s' ⟨hs, later, h⟩ hroom hstep
  exact ⟨hs.step hstep, h.step hs hroom hstep⟩

end Tracks

/-! ## When a resumption misses nothing -/

theorem mem_preloads_iff {b b' : InMemory} {o : SubscribeOptions} {id : ℕ}
    (hres : b.subscribe false o = (.ok id, b')) (hexact : o.isPrefix = false)
    (hpos : 0 < o.since) (frame : Frame) :
    frame ∈ preloads b o ↔ o.since < frame.sequence ∧ frame ∈ b.retained o.topic := by
  obtain ⟨_, options, frames, hcheck, hreplay, _⟩ := InMemory.subscribe_eq_ok hres
  obtain ⟨htopic, _, hsince, _⟩ := InMemory.checkOptions_ok hcheck hexact
  have hframes := (InMemory.replayFor_since (hsince ▸ hpos) hreplay).1
  have hpreloads : preloads b o = frames := by
    rw [preloads, hcheck]
    dsimp only
    rw [hreplay]
  rw [hpreloads, hframes, List.mem_filter, decide_eq_true_eq, hsince, htopic]
  exact and_comm

theorem sequence_pos_of_received (hs : s.Sound) {n : ℕ}
    (h : (s.received.map Frame.sequence).max? = some n) : 0 < n := by
  obtain ⟨frame, hframe, rfl⟩ := List.mem_map.mp (List.max?_mem h)
  exact (hs.numbers.journaled frame (hs.received frame hframe)).1

/-- In every run, when the client resumes from the largest number it has
received, and for every way the run goes on in which no queue overflows: once
all calls have returned and with the subscription still open, every frame of
the topic ever added to the journal that the client had not received has
entered the new subscription, if and only if when it resumed every such frame
in the journal had a larger number and was still retained. -/
theorem resume_complete_iff (config : Config) (hcap : 0 < config.replayCapacity) (topic : Bytes)
    (actions : List Action) {s₁ s₂ : Traffic}
    (hrun : (machine topic).run (start config) actions = some s)
    {o : SubscribeOptions} {id : ℕ}
    (hsince : (s.received.map Frame.sequence).max? = some o.since)
    (hstep : machine topic s (.subscribe o) = some s₁)
    (hid : (s.bus.subscribe false o).1 = .ok id) (later : List Action)
    (hlater : (machine topic).run s₁ later = some s₂)
    (hroom : (machine topic).AllSteps Roomy s₁ later)
    (hreturned : ∀ i, s₂.calls i = none)
    (hopen : s₂.bus.IsOpen id false topic) :
    (∀ frame ∈ s₂.journaled, frame.topic = topic → frame ∉ s.received → frame ∈ s₂.entered id) ↔
      ∀ frame ∈ s.journaled, frame.topic = topic → frame ∉ s.received →
        o.since < frame.sequence ∧ frame ∈ s.bus.retained topic := by
  have hs := sound_run hcap hrun
  have hpos := sequence_pos_of_received hs hsince
  have htracks₁ := tracks_subscribe hs hstep hid
  obtain ⟨hs₂, frames, htracks⟩ := tracks_run (hs.step hstep) htracks₁ hlater hroom
  obtain ⟨htopic, hexact, ⟨e, b, hres, _⟩ | ⟨id', b, hres, _⟩⟩ := subscribeStep_eq_some hstep
  · rw [hres] at hid
    cases hid
  have hpreloads := mem_preloads_iff hres hexact hpos
  rw [htopic] at hpreloads
  constructor
  · intro hall frame hframe hframe_topic hreceived
    have hmem : frame ∈ s₂.journaled := by
      rw [htracks.journaled]
      exact List.mem_append_left _ hframe
    rcases htracks.entered frame (hall frame hmem hframe_topic hreceived) with
      hfirst | hlate
    · exact (hpreloads frame).mp hfirst
    · have hnodup := hs₂.numbers.nodup
      rw [htracks.journaled, List.map_append] at hnodup
      exact absurd (List.mem_map_of_mem hlate)
        (List.disjoint_of_nodup_append hnodup (List.mem_map_of_mem hframe))
  · intro hall frame hframe hframe_topic hreceived
    rw [htracks.journaled] at hframe
    rcases List.mem_append.mp hframe with hold | hlate
    · exact htracks.preloaded frame ((hpreloads frame).mpr (hall frame hold hframe_topic hreceived))
    · rcases htracks.live hopen frame hlate hframe_topic with
        hmem | ⟨i, targets, hcall, _⟩
      · exact hmem
      · rw [hreturned i] at hcall
        cases hcall

/-- A bus that retains four frames a topic. -/
def gapConfig : Config := ⟨0, 0, 4, 0, false⟩

/-- What is published in the runs below. -/
def gapFrame : Frame := ⟨0, Time.zero, [1], none, reliable, priorityNormal⟩

/-- The client receives the first frame and closes its subscription; a second
frame is published before it resumes. -/
def orderlyActions : List Action :=
  [.subscribe ⟨[1], false, 4, block, 0, 0⟩,
    .number 0 Time.zero gapFrame, .journal 0 [1], .enqueue 0, .finish 0,
    .pump 1, .receive 1, .close 1,
    .number 0 Time.zero gapFrame, .journal 0 [], .finish 0]

/-- Two calls take the numbers 1 and 2.  The second one goes on, and the client
receives its frame and closes its subscription before the first one goes on. -/
def overtakenActions : List Action :=
  [.subscribe ⟨[1], false, 4, block, 0, 0⟩,
    .number 0 Time.zero gapFrame, .number 1 Time.zero gapFrame,
    .journal 1 [1], .enqueue 1, .finish 1,
    .pump 1, .receive 1, .close 1,
    .journal 0 [], .finish 0]

theorem resume_complete_orderlyActions :
    ∃ s s₁, (machine [1]).run (start gapConfig) orderlyActions = some s ∧
      (s.received.map Frame.sequence).max? = some 1 ∧
      machine [1] s (.subscribe ⟨[1], false, 4, block, 0, 1⟩) = some s₁ ∧
      ∀ frame ∈ s₁.journaled, frame.topic = [1] → frame ∉ s.received → frame ∈ s₁.entered 2 := by
  refine ⟨_, _, rfl, rfl, rfl, ?_⟩
  refine (resume_complete_iff gapConfig (by decide) [1] orderlyActions rfl
    (o := ⟨[1], false, 4, block, 0, 1⟩) rfl rfl rfl [] rfl trivial ?_
    ⟨_, rfl, rfl, rfl, rfl⟩).mpr ?_
  · intro i
    rcases i with _ | _ | i
    · rfl
    · rfl
    · rfl
  · decide

theorem resume_misses_overtaken : ∃ s s₁ frame,
      (machine [1]).run (start gapConfig) overtakenActions = some s ∧
      (s.received.map Frame.sequence).max? = some 2 ∧
      machine [1] s (.subscribe ⟨[1], false, 4, block, 0, 2⟩) = some s₁ ∧
      (s.bus.subscribe false ⟨[1], false, 4, block, 0, 2⟩).1 = .ok 2 ∧
      (∀ i, s₁.calls i = none) ∧ s₁.bus.IsOpen 2 false [1] ∧
      frame ∈ s₁.journaled ∧ frame.topic = [1] ∧ frame ∉ s.received ∧
      frame ∉ s₁.entered 2 := by
  refine ⟨_, _, { gapFrame with sequence := 1, timestamp := .zero }, rfl,
    rfl, rfl, rfl, ?_, ⟨_, rfl, rfl, rfl, rfl⟩, ?_, rfl, ?_, ?_⟩
  · intro i
    rcases i with _ | _ | i
    · rfl
    · rfl
    · rfl
  · decide
  · decide
  · decide

end Traffic

end GoWarp.StreamBus
