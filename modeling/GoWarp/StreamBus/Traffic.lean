import GoWarp.StreamBus.Journal

/-!
# Concurrent publishers and a client

Any number of `Publish` calls take turns at their steps: take a number; under
the lock, pick the targets and add the frame to the journal; enqueue to each
target.  One client subscribes to a topic, receives and closes its
subscriptions.  Closing marks a subscription and then takes it out of the
table; between the two a publisher may still pick it as a target, but it
refuses the frame, so closing is one step here.
-/

namespace GoWarp.StreamBus

open Support

/-- Where a call of `Publish` stands. -/
inductive Call where
  /-- with a number, before it takes the lock -/
  | numbered (frame : Frame)
  /-- in the journal, with the targets it has yet to enqueue to -/
  | sending (frame : Frame) (targets : List ℕ)
deriving DecidableEq

/-- The bus and the calls under way; and, of what has happened, the frames
added to journals, the frames the client has received, and the frames that have
entered the queue of each subscription. -/
structure Traffic where
  bus : InMemory
  calls : ℕ → Option Call
  journaled : List Frame
  received : List Frame
  entered : ℕ → List Frame

/-- The steps of the publishers, the client and the delivery goroutines. -/
inductive Action where
  | number (i : ℕ) (now : Time) (frame : Frame)
  | journal (i : ℕ) (order : List ℕ)
  | enqueue (i : ℕ)
  | finish (i : ℕ)
  | subscribe (o : SubscribeOptions)
  | close (id : ℕ)
  | pump (id : ℕ)
  | receive (id : ℕ)

namespace Traffic

/-- Nothing has happened. -/
def start (config : Config) : Traffic where
  bus := InMemory.new config
  calls := fun _ => none
  journaled := []
  received := []
  entered := fun _ => []

/-- Move a call to where it stands next, `none` when it returns. -/
def goto (s : Traffic) (i : ℕ) (call : Option Call) : Traffic :=
  { s with calls := Function.update s.calls i call }

def onBus (s : Traffic) (b : InMemory) : Traffic := { s with bus := b }

/-- Set what has entered the queue of a subscription. -/
def setEntered (s : Traffic) (id : ℕ) (frames : List Frame) : Traffic :=
  { s with entered := Function.update s.entered id frames }

/-! ## Steps -/

/-- A new call passes its checks and takes a number. -/
def numberStep (s : Traffic) (i : ℕ) (now : Time) (frame : Frame) :
    Option Traffic :=
  if s.calls i = none ∧ s.bus.publishError false frame = none then
    some ((s.onBus s.bus.takeNumber).goto i (some (.numbered (s.bus.stamp now frame))))
  else
    none

/-- A call has picked its targets, and its frame is in the journal. -/
def routed (s : Traffic) (i : ℕ) (frame : Frame) (order : List ℕ) (b : InMemory) : Traffic :=
  { (s.onBus b).goto i (some (.sending frame order)) with
    journaled := s.journaled ++ [frame] }

/-- A call takes the lock.  It returns if the bus is closed. -/
def journalStep (s : Traffic) (i : ℕ) (order : List ℕ) : Option Traffic :=
  match s.calls i with
  | some (.numbered frame) =>
    match s.bus.route frame with
    | .error _ => some (s.goto i none)
    | .ok (targets, b) =>
      if InMemory.IsOrderOf order targets then
        some (s.routed i frame order b)
      else
        none
  | _ => none

/-- The counter of frames that have entered the queue of a subscription. -/
def enqueuedCount (b : InMemory) (id : ℕ) : ℕ := ((b.subs id).map Subscription.enqueued).getD 0

/-- A call has enqueued to a target, and goes on with the rest of them. -/
def sent (s : Traffic) (i : ℕ) (frame : Frame) (id : ℕ) (rest : List ℕ) (b : InMemory) : Traffic :=
  ((s.onBus b).goto i (some (.sending frame rest))).setEntered id
    (if enqueuedCount s.bus id < enqueuedCount b id then
      s.entered id ++ [frame]
    else
      s.entered id)

/-- A call enqueues to its next target.  A call that is blocked stays so until
its context is cancelled, and returns then. -/
def enqueueStep (s : Traffic) (i : ℕ) : Option Traffic :=
  match s.calls i with
  | some (.sending frame (id :: rest)) =>
    match s.bus.enqueueTo frame id with
    | (some _, b) => some ((s.onBus b).goto i none)
    | (none, b) => some (s.sent i frame id rest b)
  | _ => none

/-- A call that has enqueued to all its targets returns. -/
def finishStep (s : Traffic) (i : ℕ) : Option Traffic :=
  match s.calls i with
  | some (.sending _ []) => some (s.goto i none)
  | _ => none

/-- The frames `Subscribe` preloads. -/
def preloads (b : InMemory) (o : SubscribeOptions) : List Frame :=
  match b.checkOptions o with
  | .error _ => []
  | .ok options =>
    match b.replayFor options with
    | .error _ => []
    | .ok frames => frames

def subscribeStep (topic : Bytes) (s : Traffic) (o : SubscribeOptions) :
    Option Traffic :=
  if o.topic = topic ∧ o.isPrefix = false then
    match s.bus.subscribe false o with
    | (.error _, b) => some (s.onBus b)
    | (.ok id, b) => some ((s.onBus b).setEntered id (preloads s.bus o))
  else
    none

/-- The client receives a frame. -/
def receiveStep (s : Traffic) (id : ℕ) : Option Traffic :=
  ((s.bus.subs id).bind Subscription.receive).map fun r =>
    { s.onBus (s.bus.setSub r.2) with received := s.received ++ [r.1] }

/-- One step, with a client of the given topic. -/
def machine (topic : Bytes) : Machine Traffic Action := fun s action =>
  match action with
  | .number i now frame => s.numberStep i now frame
  | .journal i order => s.journalStep i order
  | .enqueue i => s.enqueueStep i
  | .finish i => s.finishStep i
  | .subscribe o => s.subscribeStep topic o
  | .close id => some (s.onBus (s.bus.closeSub id))
  | .pump id =>
    ((s.bus.subs id).bind Subscription.pump).map fun sub =>
      s.onBus (s.bus.setSub sub)
  | .receive id => s.receiveStep id

/-! ## What a step can do -/

variable {s s' : Traffic}

theorem calls_goto (s : Traffic) (i j : ℕ) (call : Option Call) :
    (s.goto i call).calls j = if j = i then call else s.calls j := by
  split
  next h =>
    rw [h]
    exact Function.update_self _ _ _
  next h => exact Function.update_of_ne h _ _

@[simp] theorem journaled_routed (s : Traffic) (i : ℕ) (frame : Frame)
    (order : List ℕ) (b : InMemory) :
    (s.routed i frame order b).journaled = s.journaled ++ [frame] := rfl

theorem calls_routed (s : Traffic) (i j : ℕ) (frame : Frame) (order : List ℕ) (b : InMemory) :
    (s.routed i frame order b).calls j =
      if j = i then some (.sending frame order) else s.calls j :=
  calls_goto (s.onBus b) i j _

theorem calls_sent (s : Traffic) (i j : ℕ) (frame : Frame) (id : ℕ) (rest : List ℕ) (b : InMemory) :
    (s.sent i frame id rest b).calls j =
      if j = i then some (.sending frame rest) else s.calls j :=
  calls_goto (s.onBus b) i j _

theorem entered_setEntered (s : Traffic) (id id' : ℕ) (frames : List Frame) :
    (s.setEntered id frames).entered id' =
      if id' = id then frames else s.entered id' := by
  split
  next h =>
    rw [h]
    exact Function.update_self _ _ _
  next h => exact Function.update_of_ne h _ _

variable {i : ℕ} {frame : Frame}

theorem numberStep_eq_some {now : Time} (h : s.numberStep i now frame = some s') :
    s.calls i = none ∧ s' = (s.onBus s.bus.takeNumber).goto i
        (some (.numbered (s.bus.stamp now frame))) := by
  rw [numberStep] at h
  split at h
  next hguard => exact ⟨hguard.1, (Option.some.inj h).symm⟩
  next => cases h

theorem journalStep_eq_some {order : List ℕ} (h : s.journalStep i order = some s') :
    ∃ frame, s.calls i = some (.numbered frame) ∧ (s' = s.goto i none ∨
        (InMemory.IsOrderOf order (s.bus.targets frame.topic) ∧
          s' = s.routed i frame order (s.bus.addToJournal frame))) := by
  rw [journalStep] at h
  rcases hcall : s.calls i with _ | ⟨frame⟩ | ⟨frame, targets⟩
  · rw [hcall] at h
    cases h
  · rw [hcall] at h
    refine ⟨frame, rfl, ?_⟩
    dsimp only at h
    rw [InMemory.route] at h
    by_cases hclosed : s.bus.closed = true
    · rw [if_pos hclosed] at h
      exact .inl (Option.some.inj h).symm
    · rw [if_neg hclosed] at h
      dsimp only at h
      split at h
      next horder => exact .inr ⟨horder, (Option.some.inj h).symm⟩
      next => cases h
  · rw [hcall] at h
    cases h

theorem enqueueStep_eq_some (h : s.enqueueStep i = some s') :
    ∃ frame id rest, s.calls i = some (.sending frame (id :: rest)) ∧
      ((∃ e, s.bus.enqueueTo frame id = (some e, s.bus) ∧ s' = s.goto i none) ∨
        ∃ b, s.bus.enqueueTo frame id = (none, b) ∧ s' = s.sent i frame id rest b) := by
  rw [enqueueStep] at h
  rcases hcall : s.calls i with _ | ⟨frame⟩ | ⟨frame, _ | ⟨id, rest⟩⟩
  · rw [hcall] at h
    cases h
  · rw [hcall] at h
    cases h
  · rw [hcall] at h
    cases h
  · rw [hcall] at h
    refine ⟨frame, id, rest, rfl, ?_⟩
    dsimp only at h
    rcases hres : s.bus.enqueueTo frame id with ⟨_ | e, b⟩
    · rw [hres] at h
      exact .inr ⟨b, rfl, (Option.some.inj h).symm⟩
    · have hbus : b = s.bus := by
        rw [InMemory.enqueueTo] at hres
        split at hres
        · cases hres
        · split at hres
          · cases hres
          · cases hres
          · cases hres
            rfl
      rw [hres, hbus] at h
      exact .inl ⟨e, by rw [hbus], (Option.some.inj h).symm⟩

theorem finishStep_eq_some (h : s.finishStep i = some s') :
    ∃ frame, s.calls i = some (.sending frame []) ∧ s' = s.goto i none := by
  rw [finishStep] at h
  rcases hcall : s.calls i with _ | ⟨frame⟩ | ⟨frame, _ | ⟨id, rest⟩⟩
  · rw [hcall] at h
    cases h
  · rw [hcall] at h
    cases h
  · rw [hcall] at h
    exact ⟨frame, rfl, (Option.some.inj h).symm⟩
  · rw [hcall] at h
    cases h

theorem subscribeStep_eq_some {topic : Bytes} {o : SubscribeOptions}
    (h : s.subscribeStep topic o = some s') :
    o.topic = topic ∧ o.isPrefix = false ∧
      ((∃ e b, s.bus.subscribe false o = (.error e, b) ∧ s' = s.onBus b) ∨
        ∃ id b, s.bus.subscribe false o = (.ok id, b) ∧
          s' = (s.onBus b).setEntered id (preloads s.bus o)) := by
  rw [subscribeStep] at h
  split at h
  next hguard =>
    refine ⟨hguard.1, hguard.2, ?_⟩
    rcases hres : s.bus.subscribe false o with ⟨e | id, b⟩
    · rw [hres] at h
      exact .inl ⟨e, b, rfl, (Option.some.inj h).symm⟩
    · rw [hres] at h
      exact .inr ⟨id, b, rfl, (Option.some.inj h).symm⟩
  next => cases h

/-! ## Numbers -/

/-- Every number is given to one frame only. -/
structure Numbers (s : Traffic) : Prop where
  journaled : ∀ frame ∈ s.journaled, 0 < frame.sequence ∧ frame.sequence ≤ s.bus.seq
  nodup : (s.journaled.map Frame.sequence).Nodup
  numbered : ∀ i frame, s.calls i = some (.numbered frame) →
    0 < frame.sequence ∧ frame.sequence ≤ s.bus.seq ∧
      frame.sequence ∉ s.journaled.map Frame.sequence
  distinct : ∀ i j frame frame', s.calls i = some (.numbered frame) →
    s.calls j = some (.numbered frame') →
    frame.sequence = frame'.sequence → i = j

theorem Numbers.of_quiet (h : s.Numbers)
    (hjournaled : s'.journaled = s.journaled) (hseq : s'.bus.seq = s.bus.seq)
    (hcalls : ∀ i frame, s'.calls i = some (.numbered frame) →
      s.calls i = some (.numbered frame)) : s'.Numbers := by
  refine ⟨?_, ?_, ?_, ?_⟩
  · rw [hjournaled, hseq]
    exact h.journaled
  · rw [hjournaled]
    exact h.nodup
  · intro i frame hcall
    rw [hjournaled, hseq]
    exact h.numbered i frame (hcalls i frame hcall)
  · intro i j frame frame' hcall hcall'
    exact h.distinct i j frame frame' (hcalls i frame hcall) (hcalls j frame' hcall')

theorem Numbers.goto (h : s.Numbers) {call : Option Call}
    (hcall : ∀ frame, call ≠ some (.numbered frame)) :
    (s.goto i call).Numbers := by
  refine h.of_quiet rfl rfl ?_
  intro j frame hj
  rw [calls_goto] at hj
  split at hj
  · exact absurd hj (hcall frame)
  · exact hj

theorem Numbers.number (h : s.Numbers) {now : Time} : ((s.onBus s.bus.takeNumber).goto i
      (some (.numbered (s.bus.stamp now frame)))).Numbers := by
  have hnew : (s.bus.stamp now frame).sequence = s.bus.seq + 1 := rfl
  have hseq : ((s.onBus s.bus.takeNumber).goto i
      (some (.numbered (s.bus.stamp now frame)))).bus.seq = s.bus.seq + 1 := rfl
  have hcases : ∀ j frame', ((s.onBus s.bus.takeNumber).goto i
      (some (.numbered (s.bus.stamp now frame)))).calls j = some (.numbered frame') →
      (j = i ∧ frame'.sequence = s.bus.seq + 1) ∨ s.calls j = some (.numbered frame') := by
    intro j frame' hj
    rw [calls_goto] at hj
    split at hj
    next heq =>
      cases hj
      exact .inl ⟨heq, hnew⟩
    next => exact .inr hj
  refine ⟨?_, h.nodup, ?_, ?_⟩
  · intro f hf
    obtain ⟨hpos, hle⟩ := h.journaled f hf
    rw [hseq]
    exact ⟨hpos, Nat.le_succ_of_le hle⟩
  · intro j frame' hj
    rw [hseq]
    rcases hcases j frame' hj with ⟨_, hnumber⟩ | hold
    · refine ⟨by omega, hnumber.le, ?_⟩
      intro hmem
      obtain ⟨f, hf, heq⟩ := List.mem_map.mp hmem
      have hle := (h.journaled f hf).2
      omega
    · obtain ⟨hpos, hle, hfresh⟩ := h.numbered j frame' hold
      exact ⟨hpos, Nat.le_succ_of_le hle, hfresh⟩
  · intro j k frame' frame'' hj hk heq
    rcases hcases j frame' hj with ⟨hji, hnumber⟩ | hold
    · rcases hcases k frame'' hk with ⟨hki, _⟩ | hold'
      · rw [hji, hki]
      · have hle := (h.numbered k frame'' hold').2.1
        omega
    · rcases hcases k frame'' hk with ⟨_, hnumber'⟩ | hold'
      · have hle := (h.numbered j frame' hold).2.1
        omega
      · exact h.distinct j k frame' frame'' hold hold' heq

theorem Numbers.journal (h : s.Numbers)
    (hcall : s.calls i = some (.numbered frame)) {order : List ℕ}
    {b : InMemory} (hb : b.seq = s.bus.seq) :
    (s.routed i frame order b).Numbers := by
  obtain ⟨hpos, hle, hfresh⟩ := h.numbered i frame hcall
  have hcases : ∀ j frame', (s.routed i frame order b).calls j = some (.numbered frame') →
        j ≠ i ∧ s.calls j = some (.numbered frame') := by
    intro j frame' hj
    rw [calls_routed] at hj
    split at hj
    · cases hj
    next hne => exact ⟨hne, hj⟩
  refine ⟨?_, ?_, ?_, ?_⟩
  · intro f hf
    change 0 < f.sequence ∧ f.sequence ≤ b.seq
    rw [hb]
    rcases List.mem_append.mp hf with hf | hf
    · exact h.journaled f hf
    · rw [List.mem_singleton.mp hf]
      exact ⟨hpos, hle⟩
  · rw [journaled_routed, List.map_append, List.map_singleton]
    exact h.nodup.append (List.nodup_singleton _) (List.disjoint_singleton.mpr hfresh)
  · intro j frame' hj
    obtain ⟨hne, hold⟩ := hcases j frame' hj
    obtain ⟨hpos', hle', hfresh'⟩ := h.numbered j frame' hold
    change 0 < frame'.sequence ∧ frame'.sequence ≤ b.seq ∧ _
    rw [hb]
    refine ⟨hpos', hle', ?_⟩
    rw [journaled_routed, List.map_append, List.map_singleton]
    intro hmem
    rcases List.mem_append.mp hmem with hmem | hmem
    · exact hfresh' hmem
    · exact hne (h.distinct j i frame' frame hold hcall (List.mem_singleton.mp hmem))
  · intro j k frame' frame'' hj hk
    exact h.distinct j k frame' frame'' (hcases j frame' hj).2 (hcases k frame'' hk).2

/-! ## Every run -/

/-- The table of the bus is right, the journals hold the last frames added,
numbers are unique, targets are subscriptions there are, and whatever is on its
way to the client or has reached it has been added to a journal. -/
structure Sound (s : Traffic) : Prop where
  registered : s.bus.Registered
  retains : s.bus.Retains s.journaled
  numbers : s.Numbers
  sending : ∀ i frame targets, s.calls i = some (.sending frame targets) →
    frame ∈ s.journaled ∧ ∀ id ∈ targets, id ≤ s.bus.subSeq
  held : ∀ id sub frame, s.bus.subs id = some sub → sub.Has frame → frame ∈ s.journaled
  received : ∀ frame ∈ s.received, frame ∈ s.journaled

theorem sound_start {config : Config} (hpos : 0 < config.replayCapacity) :
    (start config).Sound where
  registered := InMemory.registered_new config
  retains := InMemory.retains_new hpos
  numbers := by
    refine ⟨?_, List.nodup_nil, ?_, ?_⟩
    · intro frame hframe
      exact absurd hframe List.not_mem_nil
    · intro i frame hcall
      cases hcall
    · intro i j frame frame' hcall
      cases hcall
  sending := by
    intro i frame targets hcall
    cases hcall
  held := by
    intro id sub frame hsub
    cases hsub
  received := fun _ h => absurd h List.not_mem_nil

section

variable (h : s.Sound)
include h

theorem Sound.onBus {b : InMemory} (hb : b.Registered) (hjournals : InMemory.SameJournals s.bus b)
    (hle : s.bus.subSeq ≤ b.subSeq) (hheld : ∀ id sub frame, b.subs id = some sub → sub.Has frame →
      frame ∈ s.journaled) : (s.onBus b).Sound := by
  refine ⟨hb, h.retains.congr hjournals.config hjournals.replay,
    h.numbers.of_quiet rfl hjournals.seq fun _ _ hcall => hcall,
    ?_, hheld, h.received⟩
  intro i frame targets hcall
  obtain ⟨hframe, htargets⟩ := h.sending i frame targets hcall
  exact ⟨hframe, fun id hid => (htargets id hid).trans hle⟩

theorem Sound.goto {call : Option Call} (hnumbered : ∀ frame, call ≠ some (.numbered frame))
    (hsending : ∀ frame targets, call = some (.sending frame targets) →
      frame ∈ s.journaled ∧ ∀ id ∈ targets, id ≤ s.bus.subSeq) :
    (s.goto i call).Sound := by
  refine ⟨h.registered, h.retains, h.numbers.goto hnumbered, ?_, h.held, h.received⟩
  intro j frame targets hj
  rw [calls_goto] at hj
  split at hj
  · exact hsending frame targets hj
  · exact h.sending j frame targets hj

theorem Sound.setEntered (id : ℕ) (frames : List Frame) : (s.setEntered id frames).Sound :=
  ⟨h.registered, h.retains, h.numbers.of_quiet rfl rfl fun _ _ hcall => hcall,
    h.sending, h.held, h.received⟩

theorem Sound.finish (i : ℕ) : (s.goto i none).Sound :=
  h.goto (fun _ h => nomatch h) fun _ _ h => nomatch h

theorem Sound.number {now : Time} : ((s.onBus s.bus.takeNumber).goto i
      (some (.numbered (s.bus.stamp now frame)))).Sound := by
  refine ⟨?_, h.retains.congr rfl rfl, h.numbers.number, ?_, h.held, h.received⟩
  · exact h.registered.of_sameTable (.of_subs rfl (Nat.le_refl _) rfl rfl)
  · intro j frame' targets hj
    rw [calls_goto] at hj
    split at hj
    · cases hj
    · exact h.sending j frame' targets hj

theorem Sound.journal (hcall : s.calls i = some (.numbered frame)) {order : List ℕ}
    (horder : InMemory.IsOrderOf order (s.bus.targets frame.topic)) :
    (s.routed i frame order (s.bus.addToJournal frame)).Sound := by
  obtain ⟨hsubs, _, hsubSeq, _, hseq, _⟩ := s.bus.addToJournal_fields frame
  have hgrow : ∀ f, f ∈ s.journaled → f ∈ s.journaled ++ [frame] :=
    fun f hf => List.mem_append_left _ hf
  refine ⟨?_, h.retains.addToJournal frame, h.numbers.journal hcall hseq,
    ?_, ?_, fun f hf => hgrow f (h.received f hf)⟩
  · exact h.registered.of_sameTable (s.bus.sameTable_addToJournal frame)
  · intro j frame' targets hj
    change _ ∧ ∀ id ∈ targets, id ≤ (s.bus.addToJournal frame).subSeq
    rw [calls_routed] at hj
    rw [hsubSeq]
    split at hj
    · cases hj
      refine ⟨List.mem_append_right _ (List.mem_singleton_self _), ?_⟩
      intro id hid
      rw [← List.mem_toFinset, horder.2] at hid
      obtain ⟨sub, hsub, _⟩ := (h.registered.mem_targets_iff _ _).mp hid
      exact h.registered.subs_le id sub hsub
    · obtain ⟨hframe, htargets⟩ := h.sending j frame' targets hj
      exact ⟨hgrow _ hframe, htargets⟩
  · intro id sub f hsub hf
    change (s.bus.addToJournal frame).subs id = some sub at hsub
    rw [hsubs] at hsub
    exact hgrow f (h.held id sub f hsub hf)

theorem Sound.enqueue (hframe : frame ∈ s.journaled) {id : ℕ} {b : InMemory}
    (hres : s.bus.enqueueTo frame id = (none, b)) : (s.onBus b).Sound := by
  have hsame := InMemory.sameTable_enqueueTo h.registered frame id
  have hjournals := s.bus.sameJournals_enqueueTo frame id
  rw [hres] at hsame hjournals
  refine h.onBus (h.registered.of_sameTable hsame) hjournals hsame.subSeq ?_
  intro id' sub f hsub hf
  rw [InMemory.subs_enqueueTo h.registered hres] at hsub
  split at hsub
  · obtain ⟨sub', hsub', rfl⟩ := Option.map_eq_some_iff.mp hsub
    rcases Subscription.has_of_offered hf with hf | rfl
    · exact h.held id sub' f hsub' hf
    · exact hframe
  · exact h.held id' sub f hsub hf

theorem Sound.subscribe (o : SubscribeOptions) : (s.onBus (s.bus.subscribe false o).2).Sound := by
  have hstep : InMemory.step s.bus (.subscribe false o) = some (s.bus.subscribe false o).2 := rfl
  refine h.onBus (h.registered.step hstep) (s.bus.sameJournals_subscribe false o)
    (s.bus.subs_subscribe_of_le false o (Nat.le_refl _)).2 ?_
  intro id sub f hsub hf
  rcases s.bus.subscribe_cases false o with
    ⟨e, heq⟩ | ⟨e, options, heq⟩ | ⟨options, frames, _, _, hreplay, heq⟩
  · rw [heq] at hsub
    exact h.held id sub f hsub hf
  · rw [heq, (InMemory.subs_remove _ _ _).1] at hsub
    exact h.held id sub f hsub hf
  · rw [heq, (InMemory.subs_register _ _).1, InMemory.subs_setSub] at hsub
    split at hsub
    · cases hsub
      rcases Subscription.has_of_preload hf with ⟨p, hp⟩ | hf
      · exact absurd hp List.not_mem_nil
      · exact (h.retains.mem_history (InMemory.mem_retained_of_replayFor hreplay hf)).1
    · exact h.held id sub f hsub hf

theorem Sound.close (id : ℕ) : (s.onBus (s.bus.closeSub id)).Sound := by
  refine h.onBus (h.registered.closeSub id) (s.bus.sameJournals_closeSub id)
    (s.bus.closeSub_fields id).1.ge ?_
  intro id' sub f hsub hf
  rw [InMemory.subs_closeSub h.registered.subs_id] at hsub
  split at hsub
  · obtain ⟨sub', hsub', rfl⟩ := Option.map_eq_some_iff.mp hsub
    exact h.held id sub' f hsub' hf
  · exact h.held id' sub f hsub hf

theorem Sound.setSub {id : ℕ} {sub sub' : Subscription}
    (hsub : s.bus.subs id = some sub) (hsame : Subscription.Same sub sub')
    (hhas : ∀ frame, sub'.Has frame → sub.Has frame) :
    (s.onBus (s.bus.setSub sub')).Sound := by
  refine h.onBus ?_ ⟨rfl, rfl, rfl⟩ (Nat.le_refl _) ?_
  · exact h.registered.of_sameTable (InMemory.sameTable_setSub h.registered hsub hsame)
  · intro id' sub'' f hsub'' hf
    rw [InMemory.subs_setSub] at hsub''
    split at hsub''
    · cases hsub''
      exact h.held id sub f hsub (hhas f hf)
    · exact h.held id' sub'' f hsub'' hf

theorem Sound.step {topic : Bytes} {action : Action}
    (hstep : machine topic s action = some s') : s'.Sound := by
  cases action with
  | number i now frame =>
    obtain ⟨_, rfl⟩ := numberStep_eq_some hstep
    exact h.number
  | journal i order =>
    obtain ⟨frame, hcall, rfl | ⟨horder, rfl⟩⟩ := journalStep_eq_some hstep
    · exact h.finish i
    · exact h.journal hcall horder
  | enqueue i =>
    obtain ⟨frame, id, rest, hcall, ⟨e, _, rfl⟩ | ⟨b, hres, rfl⟩⟩ := enqueueStep_eq_some hstep
    · exact h.finish i
    · obtain ⟨hframe, htargets⟩ := h.sending i frame _ hcall
      have hsame := InMemory.sameTable_enqueueTo h.registered frame id
      rw [hres] at hsame
      refine .setEntered (.goto (h.enqueue hframe hres) (fun _ h => by cases h) ?_) _ _
      intro frame' targets heq
      cases heq
      refine ⟨hframe, fun id' hid' => ?_⟩
      exact (htargets id' (List.mem_cons_of_mem _ hid')).trans hsame.subSeq
  | finish i =>
    obtain ⟨frame, _, rfl⟩ := finishStep_eq_some hstep
    exact h.finish i
  | subscribe o =>
    have hbus := h.subscribe o
    obtain ⟨_, _, ⟨e, b, hres, rfl⟩ | ⟨id, b, hres, rfl⟩⟩ := subscribeStep_eq_some hstep
    · rw [hres] at hbus
      exact hbus
    · rw [hres] at hbus
      exact hbus.setEntered _ _
  | close id =>
    cases hstep
    exact h.close id
  | pump id =>
    obtain ⟨sub', hpump, rfl⟩ := Option.map_eq_some_iff.mp hstep
    obtain ⟨sub, hsub, hsub'⟩ := Option.bind_eq_some_iff.mp hpump
    exact h.setSub hsub (Subscription.same_pump hsub') fun _ =>
      Subscription.has_of_pump hsub'
  | receive id =>
    obtain ⟨⟨frame, sub'⟩, hreceive, rfl⟩ := Option.map_eq_some_iff.mp hstep
    obtain ⟨sub, hsub, hsub'⟩ := Option.bind_eq_some_iff.mp hreceive
    obtain ⟨hframe, hhas⟩ := Subscription.has_of_receive hsub'
    have hbus := h.setSub hsub (Subscription.same_receive hsub') hhas
    refine ⟨hbus.registered, hbus.retains,
      hbus.numbers.of_quiet rfl rfl fun _ _ hcall => hcall, hbus.sending,
      hbus.held, ?_⟩
    intro f hf
    rcases List.mem_append.mp hf with hf | hf
    · exact h.received f hf
    · rw [List.mem_singleton.mp hf]
      exact h.held id sub frame hsub hframe

end

theorem sound_run {config : Config} (hpos : 0 < config.replayCapacity)
    {topic : Bytes} {actions : List Action}
    (hrun : (machine topic).run (start config) actions = some s) :
    s.Sound :=
  (machine topic).run_invariant (fun _ _ _ h hstep => h.step hstep) hrun (sound_start hpos)

end Traffic

end GoWarp.StreamBus
