import GoWarp.StreamBus.Journal

/-!
# Replay joined with live delivery

A new subscription starts with frames of the journal and goes on with the
frames published after it.  The bus registers it under the lock under which it
reads the journal, so that nothing is lost or doubled where the two meet.
-/

namespace GoWarp.StreamBus

open Support

theorem InOrder.of_append_left {frames frames' : List Frame}
    (h : InOrder (frames ++ frames')) : InOrder frames :=
  (List.pairwise_append.mp h).1

namespace FrameQueue

/-- The queue holds the frames of a list, class by class. -/
structure Holds (q : FrameQueue) (frames : List Frame) : Prop where
  contents : ∀ p, q.contents p = classPart p frames
  len : q.len = frames.length

theorem holds_new (capacity : ℕ) (hpos : 0 < capacity) : (new capacity hpos).Holds [] :=
  ⟨fun _ => rfl, rfl⟩

theorem Holds.push {q q' : FrameQueue} {frames : List Frame} {frame : Frame}
    (h : q.Holds frames) (hpush : q.push frame = some q') :
    q'.Holds (frames ++ [frame]) := by
  obtain ⟨hcontents, hlen, _⟩ := push_eq_some hpush
  constructor
  · intro p
    rw [hcontents, h.contents, classPart_append]
  · rw [hlen, h.len, List.length_append, List.length_singleton]

theorem Holds.popOldest {q : FrameQueue} {first : Frame} {rest : List Frame}
    (h : q.Holds (first :: rest)) (horder : InOrder (first :: rest)) :
    ∃ q', q.popOldest = some (first, q') ∧ q'.Holds rest ∧ q'.capacity = q.capacity := by
  have hfirst : q.contents first.priorityClass =
      first :: classPart first.priorityClass rest := by
    rw [h.contents]
    exact List.filter_cons_of_pos (by simp)
  rcases hpop : q.popOldest with _ | ⟨frame, q'⟩
  · rw [popOldest_eq_none hpop] at hfirst
    cases hfirst
  · obtain ⟨p, hp, hleast⟩ := popOldest_eq_some hpop
    obtain ⟨hcontents, hother, hlen, hcapacity⟩ := popClass_eq_some hp
    have hmem : frame ∈ classPart p (first :: rest) := by
      rw [← h.contents, hcontents]
      exact List.mem_cons_self
    obtain ⟨hframe, hclass⟩ := List.mem_filter.mp hmem
    have hle := hleast _ _ _ hfirst
    have heq : frame = first := by
      rcases List.mem_cons.mp hframe with heq | hrest
      · exact heq
      · have hlt := (List.pairwise_cons.mp horder).1 frame hrest
        omega
    subst heq
    obtain rfl : frame.priorityClass = p := of_decide_eq_true hclass
    refine ⟨q', rfl, ⟨?_, ?_⟩, hcapacity⟩
    · intro p'
      by_cases hp' : p' = frame.priorityClass
      · subst hp'
        rw [hcontents] at hfirst
        exact (List.cons.inj hfirst).2
      · rw [hother p' hp', h.contents]
        exact List.filter_cons_of_neg (by simpa using Ne.symm hp')
    · have hlen' := h.len
      rw [List.length_cons] at hlen'
      omega

theorem Holds.pushOver {q : FrameQueue} {first frame : Frame}
    {rest : List Frame} (h : q.Holds (first :: rest))
    (horder : InOrder (first :: rest)) (hfull : q.len = q.capacity) :
    (q.pushOver frame).Holds (rest ++ [frame]) ∧ (q.pushOver frame).capacity = q.capacity := by
  obtain ⟨q', hpop, hholds, hcapacity⟩ := h.popOldest horder
  rw [FrameQueue.pushOver, hpop, Option.map_some, Option.getD_some]
  rcases hpush : q'.push frame with _ | q''
  · have hlen' := push_eq_none_iff.mp hpush
    have hlen := h.len
    have hrest := hholds.len
    rw [List.length_cons] at hlen
    omega
  · exact ⟨hholds.push hpush, (push_eq_some hpush).2.2.trans hcapacity⟩

end FrameQueue

namespace Subscription

variable {s : Subscription}

theorem holds_preloadFrame {kept : List Frame}
    (h : s.queue.Holds kept) (horder : InOrder kept) (frame : Frame) :
    (s.preloadFrame frame).queue.Holds ((kept ++ [frame]).rtake s.queue.capacity) ∧
      (s.preloadFrame frame).queue.capacity = s.queue.capacity ∧
      (s.preloadFrame frame).inFlight = s.inFlight := by
  have hle := s.queue.len_le
  have hlen := h.len
  rw [preloadFrame]
  rcases hpush : s.queue.push frame with _ | q
  · have hfull := FrameQueue.push_eq_none_iff.mp hpush
    rcases kept with _ | ⟨first, rest⟩
    · have hpos : 0 < s.queue.capacity := by
        rw [← s.queue.length_items 0]
        exact Nat.lt_of_le_of_lt (Nat.zero_le _) (s.queue.queues 0).head_lt
      rw [List.length_nil] at hlen
      omega
    · obtain ⟨hholds, hcapacity⟩ := h.pushOver horder hfull
      rw [rtake_cons_concat (hlen.symm.trans hfull)]
      exact ⟨hholds, hcapacity, rfl⟩
  · obtain ⟨_, hlen', hcapacity⟩ := FrameQueue.push_eq_some hpush
    have hroom : (kept ++ [frame]).length ≤ s.queue.capacity := by
      have hle' := q.len_le
      rw [List.length_append, List.length_singleton]
      omega
    rw [rtake_of_length_le hroom]
    exact ⟨h.push hpush, hcapacity, rfl⟩

theorem holds_preload {history frames : List Frame}
    (h : s.queue.Holds (history.rtake s.queue.capacity)) (horder : InOrder (history ++ frames)) :
    (s.preload frames).queue.Holds ((history ++ frames).rtake s.queue.capacity) ∧
      (s.preload frames).inFlight = s.inFlight := by
  induction frames generalizing s history with
  | nil =>
    rw [List.append_nil]
    exact ⟨h, rfl⟩
  | cons frame rest ih =>
    have hkept : InOrder (history.rtake s.queue.capacity) :=
      List.Pairwise.sublist (rtake_sublist _ _) horder.of_append_left
    obtain ⟨hone, hcapacity, hflight⟩ := holds_preloadFrame h hkept frame
    rw [rtake_rtake_concat, ← hcapacity] at hone
    have hsplit : history ++ frame :: rest = history ++ [frame] ++ rest := by
      rw [List.append_assoc, List.singleton_append]
    rw [hsplit] at horder ⊢
    obtain ⟨hrest, hflight'⟩ := ih hone horder
    rw [hcapacity] at hrest
    exact ⟨hrest, hflight'.trans hflight⟩

theorem held_preload_new (id : ℕ) (options : ValidOptions)
    {frames : List Frame} (horder : InOrder frames) (p : Fin 4) :
    ((new id options).preload frames).held p =
      FrameQueue.classPart p (frames.rtake options.buffer.toNat) := by
  have hnew : (new id options).queue.Holds
      (([] : List Frame).rtake (new id options).queue.capacity) := by
    rw [List.rtake_nil]
    exact FrameQueue.holds_new _ _
  obtain ⟨hholds, hflight⟩ := holds_preload hnew horder
  rw [held, hflight, hholds.contents]
  rfl

theorem held_offered (hopen : s.closed = false)
    (hroom : s.queue.len < s.queue.capacity) (frame : Frame) (p : Fin 4) :
    (s.offered frame).held p = s.held p ++ FrameQueue.classPart p [frame] := by
  rw [offered, enqueue, hopen, if_neg Bool.false_ne_true]
  rcases hpush : s.queue.push frame with _ | q
  · have hfull := FrameQueue.push_eq_none_iff.mp hpush
    omega
  · exact held_of_push hpush p (s.enqueued + 1)

end Subscription

namespace InMemory

/-! ## Subscribing -/

variable {b : InMemory} {options : ValidOptions} {b' : InMemory} {id : ℕ}

theorem subscribe_eq {o : SubscribeOptions} (h : b.checkOptions o = .ok options)
    (hbus : b.closed = false) :
    b.subscribe false o =
      match b.replayFor options with
      | .error e => (.error e, b.takeId.remove (b.subSeq + 1) options)
      | .ok frames => (.ok (b.subSeq + 1), b.takeId.register
          ((Subscription.new (b.subSeq + 1) options).preload frames)) := by
  have hopen : ¬b.takeId.closed = true := by
    change ¬b.closed = true
    rw [hbus]
    exact Bool.false_ne_true
  rw [subscribe, h]
  dsimp only
  rw [if_neg Bool.false_ne_true, if_neg hopen]
  rfl

/-! ## Following a topic -/

/-- Nothing is taken from the subscription and it stays open, every `Publish`
that passes its checks succeeds, and the subscription has room for the frames
of its topic. -/
def Undisturbed (id : ℕ) (b : InMemory) : Op → Prop
  | .publish ctxDone now frame order =>
    b.publishError ctxDone frame = none → (b.publish ctxDone now frame order).1.2 = none ∧
        ∀ s, b.subs id = some s → s.options.Matches frame.topic → s.queue.len < s.queue.capacity
  | .subscribe _ _ => True
  | .closeSub id' => id' ≠ id
  | .close _ => False
  | .pump _ => True
  | .receive id' => id' ≠ id

/-- A subscription to a topic is open and holds the frames of a list. -/
def Follows (b : InMemory) (id : ℕ) (topic : Bytes) (frames : List Frame) :
    Prop :=
  ∃ s, b.subs id = some s ∧ s.closed = false ∧ s.options.isPrefix = false ∧
    s.options.topic = topic ∧
    ∀ p, s.held p = FrameQueue.classPart p frames

variable {topic : Bytes} {frames : List Frame}

theorem Follows.of_subs (h : b.Follows id topic frames)
    (hsubs : b'.subs id = b.subs id) : b'.Follows id topic frames := by
  rw [Follows, hsubs]
  exact h

theorem Follows.publish (hb : b.Registered) (h : b.Follows id topic frames)
    {ctxDone : Bool} {now : Time} {frame : Frame} {order : List ℕ}
    (horder : IsOrderOf order (b.targets frame.topic))
    (hcalm : b.Undisturbed id (.publish ctxDone now frame order)) :
    (b.publish ctxDone now frame order).2.Follows id topic (frames ++ ofTopic topic
        (b.publishedBy (.publish ctxDone now frame order)).toList) := by
  rcases b.publish_cases ctxDone now frame order with
    ⟨hnone, heq⟩ | ⟨hsome, herr, _, _, _⟩
  · have hsubs : (b.publish ctxDone now frame order).2.subs id =
        b.subs id := by
      rcases heq with heq | heq
      · rw [heq]
      · rw [heq]
        rfl
    rw [hnone]
    change Follows _ id topic (frames ++ [])
    rw [List.append_nil]
    exact h.of_subs hsubs
  · obtain ⟨hok, hroom⟩ := hcalm herr
    have hsubs := subs_publish hb horder hok id
    have htopic : (b.stamp now frame).topic = frame.topic := rfl
    rw [hsome, Option.toList_some, ofTopic_singleton, htopic]
    obtain ⟨s, hs, hopen, hexact, hs_topic, hheld⟩ := h
    have hmatch : s.options.Matches frame.topic ↔ frame.topic = topic := by
      rw [SubscribeOptions.Matches, hexact, if_neg Bool.false_ne_true, hs_topic]
      exact eq_comm
    by_cases hmem : frame.topic = topic
    · have htarget : id ∈ b.targets frame.topic :=
        (hb.mem_targets_iff _ _).mpr ⟨s, hs, hopen, hmatch.mpr hmem⟩
      have hsame : Subscription.Same s (s.offered (b.stamp now frame)) :=
        Subscription.same_offered s _
      rw [if_pos htarget, hs, Option.map_some] at hsubs
      rw [if_pos hmem]
      refine ⟨_, hsubs, hsame.closed.trans hopen, ?_, ?_, ?_⟩
      · rw [hsame.options, hexact]
      · rw [hsame.options, hs_topic]
      · intro p
        rw [Subscription.held_offered hopen (hroom s hs (hmatch.mpr hmem)),
          hheld, FrameQueue.classPart_append]
    · have htarget : id ∉ b.targets frame.topic := by
        intro hid
        obtain ⟨s', hs', _, hmatch'⟩ := (hb.mem_targets_iff _ _).mp hid
        cases hs.symm.trans hs'
        exact hmem (hmatch.mp hmatch')
      rw [if_neg htarget] at hsubs
      rw [if_neg hmem, List.append_nil]
      exact ⟨s, hsubs.trans hs, hopen, hexact, hs_topic, hheld⟩

theorem Follows.pump (hb : b.Registered) {id id' : ℕ} (h : b.Follows id topic frames)
    {s s' : Subscription} (hs : b.subs id' = some s)
    (hpump : s.pump = some s') : (b.setSub s').Follows id topic frames := by
  have hsame := Subscription.same_pump hpump
  have hid : s'.id = id' := hsame.id.trans (hb.subs_id id' s hs)
  by_cases heq : id = id'
  · subst heq
    obtain ⟨s₀, hs₀, hopen, hexact, htopic, hheld⟩ := h
    cases hs.symm.trans hs₀
    refine ⟨s', ?_, hsame.closed.trans hopen, ?_, ?_, ?_⟩
    · rw [subs_setSub, if_pos hid.symm]
    · rw [hsame.options, hexact]
    · rw [hsame.options, htopic]
    · intro p
      rw [Subscription.held_pump hpump, hheld]
  · apply h.of_subs
    rw [subs_setSub, hid, if_neg heq]

theorem Follows.step (hb : b.Registered) {op : Op}
    (h : b.Follows id topic frames) (hcalm : b.Undisturbed id op)
    (hstep : InMemory.step b op = some b') :
    b'.Follows id topic (frames ++ ofTopic topic (b.publishedBy op).toList) := by
  -- only a `Publish` adds frames
  have hquiet : b.publishedBy op = none → b'.Follows id topic frames → b'.Follows id topic
        (frames ++ ofTopic topic (b.publishedBy op).toList) := by
    intro hnone hfollows
    rw [hnone]
    change b'.Follows id topic (frames ++ [])
    rwa [List.append_nil]
  cases op with
  | publish ctxDone now frame order =>
    rw [InMemory.step] at hstep
    split at hstep
    next horder =>
      cases hstep
      exact h.publish hb horder hcalm
    next => cases hstep
  | subscribe ctxDone o =>
    cases hstep
    refine hquiet rfl (h.of_subs ?_)
    obtain ⟨s, hs, _⟩ := h
    exact (b.subs_subscribe_of_le ctxDone o (hb.subs_le id s hs)).1
  | closeSub id' =>
    cases hstep
    refine hquiet rfl (h.of_subs ?_)
    rw [subs_closeSub hb.subs_id, if_neg (Ne.symm hcalm)]
  | close order => exact hcalm.elim
  | pump id' =>
    rw [InMemory.step, Option.map_eq_some_iff] at hstep
    obtain ⟨s', hpump, rfl⟩ := hstep
    obtain ⟨s, hs, hs'⟩ := Option.bind_eq_some_iff.mp hpump
    exact hquiet rfl (h.pump hb hs hs')
  | receive id' =>
    rw [InMemory.step, Option.map_eq_some_iff] at hstep
    obtain ⟨⟨frame, s'⟩, hreceive, rfl⟩ := hstep
    obtain ⟨s, hs, hs'⟩ := Option.bind_eq_some_iff.mp hreceive
    have hid : s'.id = id' := (Subscription.same_receive hs').id.trans (hb.subs_id id' s hs)
    refine hquiet rfl (h.of_subs ?_)
    rw [subs_setSub]
    change (if id = s'.id then _ else _) = _
    rw [hid, if_neg (Ne.symm hcalm)]

/-- From here on the subscription holds the frames of a list, followed by all
frames published on its topic, in the order of their numbers. -/
def StartsWith (b : InMemory) (id : ℕ) (topic : Bytes) (first : List Frame) : Prop :=
  ∀ after b', step.run b after = some b' → step.AllSteps (Undisturbed id) b after →
    InOrder (first ++ ofTopic topic (b.published after)) ∧
      b'.Follows id topic (first ++ ofTopic topic (b.published after))

theorem Follows.startsWith (hb : b.Registered)
    {history : List Frame} (hjournal : b.Journaled history) {first : List Frame}
    (h : b.Follows id topic first) (hfirst : first.Sublist (ofTopic topic history)) :
    b.StartsWith id topic first := by
  intro after b' hrun hcalm
  constructor
  · have hend := InMemory.step.run_history publishedBy
      (fun _ _ _ _ h hstep => .step h hstep) hrun hjournal
    have hall : InOrder (ofTopic topic (history ++ b.published after)) :=
      List.Pairwise.sublist List.filter_sublist hend.inOrder
    rw [ofTopic_append] at hall
    exact .sublist (hfirst.append (.refl _)) hall
  · have hend := InMemory.step.run_history_of_allSteps publishedBy (I := fun b h => b.Registered ∧
        b.Follows id topic (first ++ ofTopic topic h))
      (h := []) ?_ hrun hcalm ⟨hb, ?_⟩
    · exact hend.2
    · rintro b h op b' ⟨hb, hfollows⟩ hcalm hstep
      refine ⟨hb.step hstep, ?_⟩
      rw [ofTopic_append, ← List.append_assoc]
      exact hfollows.step hb hcalm hstep
    · change b.Follows id topic (first ++ [])
      rwa [List.append_nil]

theorem startsWith_register (hb : b.Registered)
    {history : List Frame} (hjournal : b.Journaled history) (hbus : b.closed = false)
    (hexact : options.isPrefix = false) (hframes : frames.Sublist (ofTopic options.topic history)) :
    (b.takeId.register ((Subscription.new (b.subSeq + 1) options).preload
        frames)).StartsWith (b.subSeq + 1) options.topic
      (frames.rtake options.buffer.toNat) := by
  have hsame := Subscription.same_preload (Subscription.new (b.subSeq + 1) options) frames
  have hid : ((Subscription.new (b.subSeq + 1) options).preload frames).id =
      b.subSeq + 1 := hsame.id
  have horder : InOrder frames := .sublist (hframes.trans List.filter_sublist) hjournal.inOrder
  obtain ⟨hsubs, _, _⟩ := b.takeId.subs_register
    ((Subscription.new (b.subSeq + 1) options).preload frames)
  have hjournals := b.takeId.sameJournals_register
    ((Subscription.new (b.subSeq + 1) options).preload frames)
  have hfresh : b.takeId.subs ((Subscription.new (b.subSeq + 1)
      options).preload frames).id = none := by
    rw [hid]
    exact hb.subs_succ
  have hregistered := (hb.of_sameTable b.sameTable_takeId).register hfresh hid.le hsame.closed hbus
  have hjournaled : (b.takeId.register ((Subscription.new (b.subSeq + 1)
      options).preload frames)).Journaled history := by
    refine ⟨hjournal.retains.congr hjournals.config hjournals.replay, hjournal.inOrder, ?_⟩
    rw [hjournals.seq]
    exact hjournal.le_seq
  have hfollows : (b.takeId.register ((Subscription.new (b.subSeq + 1)
      options).preload frames)).Follows (b.subSeq + 1) options.topic
        (frames.rtake options.buffer.toNat) := by
    refine ⟨_, ?_, hsame.closed, ?_, ?_, ?_⟩
    · rw [hsubs, subs_setSub, if_pos hid.symm]
    · rw [hsame.options]
      exact hexact
    · rw [hsame.options]
      rfl
    · exact Subscription.held_preload_new _ _ horder
  exact hfollows.startsWith hregistered hjournaled ((rtake_sublist _ _).trans hframes)

/-! ## Replay and live delivery join exactly -/

theorem lt_sequence_of_published {ops : List Op} (hrun : step.run b ops = some b') :
    ∀ frame ∈ b.published ops, b.seq < frame.sequence := by
  have hend := step.run_history publishedBy
    (I := fun b' h => b.seq ≤ b'.seq ∧ ∀ frame ∈ h, b.seq < frame.sequence)
    (h := []) ?_ hrun ⟨Nat.le_refl _, fun _ h => nomatch h⟩
  · exact hend.2
  · rintro b₁ h op b₂ ⟨hle, hall⟩ hstep
    rcases step_journals hstep with
      ⟨hnone, _, _, hseq⟩ | ⟨frame, hsome, hnumber, hseq, _, _⟩
    · rw [hnone, Option.toList_none, List.append_nil]
      exact ⟨hle.trans hseq, hall⟩
    · rw [hsome, Option.toList_some]
      refine ⟨by omega, ?_⟩
      intro f hf
      rcases List.mem_append.mp hf with hf | hf
      · exact hall f hf
      · rw [List.mem_singleton] at hf
        rw [hf]
        omega

/-- On a bus with journals, after any operations, an exact-topic `Subscribe`
that resumes fails with `ErrReplayUnavailable`, or the subscription holds the
frames published on the topic with a greater number, followed by all frames
published on the topic from then on; these have a greater number as well when
the number is not ahead of the bus.  One that asks for a replay succeeds and
holds the last frames published, as many as asked for, as fit into the buffer
and as are retained, followed by all frames published from then on. -/
theorem subscribe_joins (config : Config) (hcap : 0 < config.replayCapacity)
    (before : List Op) {b : InMemory}
    (hrun : step.run (new config) before = some b) (hbus : b.closed = false)
    {o : SubscribeOptions} (hexact : o.isPrefix = false)
    {options : ValidOptions} (hoptions : b.checkOptions o = .ok options) :
    (0 < o.since → (b.subscribe false o).1 = .error .replayUnavailable ∨
        ∃ id b', b.subscribe false o = (.ok id, b') ∧ b'.StartsWith id o.topic
            ((ofTopic o.topic ((new config).published before)).filter
              fun frame => o.since < frame.sequence) ∧
          (o.since ≤ b.seq → ∀ after b'', step.run b' after = some b'' →
            ∀ frame ∈ b'.published after, o.since < frame.sequence)) ∧
    (o.since = 0 → 0 < o.replay → ∃ id b', b.subscribe false o = (.ok id, b') ∧
        b'.StartsWith id o.topic ((ofTopic o.topic ((new config).published before)).rtake
            (min (min o.replay.toNat options.buffer.toNat) config.replayCapacity.toNat))) := by
  have hb := registered_run hrun
  have hjournaled := journaled_run hcap hrun
  obtain ⟨htopic, hexact', hsince, hreplay⟩ := checkOptions_ok hoptions hexact
  have hsub := subscribe_eq hoptions hbus
  constructor
  · intro hpos
    split at hsub
    next e hres =>
      rw [hsub, replayFor_error hres]
      exact .inl rfl
    next frames hres =>
      obtain ⟨hframes, hfits, hgap⟩ := replayFor_since (hsince ▸ hpos) hres
      rw [hjournaled.retains.filter_retained hjournaled.inOrder
        (hsince ▸ hpos) hgap, htopic, hsince] at hframes
      have hsublist : frames.Sublist (ofTopic options.topic ((new config).published before)) := by
        rw [htopic, hframes]
        exact List.filter_sublist
      have hstarts := startsWith_register hb hjournaled hbus hexact' hsublist
      rw [rtake_of_length_le hfits, htopic, hframes] at hstarts
      rw [hframes] at hsub
      refine .inr ⟨_, _, hsub, hstarts, ?_⟩
      intro hle after b'' hafter frame hframe
      have hlt := lt_sequence_of_published hafter frame hframe
      rw [(sameJournals_register _ _).seq] at hlt
      exact Nat.lt_of_le_of_lt hle hlt
  · intro hzero hpos
    have hres := replayFor_replay (b := b) (hsince.trans hzero) ((hreplay hpos).symm ▸ hpos)
    rw [hreplay hpos, hjournaled.retains.eq, rtake_rtake, htopic] at hres
    rw [hres] at hsub
    have hsublist := rtake_sublist (ofTopic options.topic
      ((new config).published before)) (min o.replay.toNat b.retention)
    have hstarts := startsWith_register hb hjournaled hbus hexact' hsublist
    have hmin : min (min o.replay.toNat options.buffer.toNat) config.replayCapacity.toNat =
        min options.buffer.toNat (min o.replay.toNat b.retention) := by
      rw [retention_run hrun]
      omega
    rw [rtake_rtake, htopic] at hstarts
    rw [hmin]
    exact ⟨_, _, hsub, hstarts⟩

/-- A bus that retains four frames a topic. -/
def sampleConfig : Config := ⟨0, 0, 4, 0, false⟩

/-- A `Publish` on a fixed topic, with the given targets. -/
def samplePublish (order : List ℕ) : Op :=
  .publish false Time.zero ⟨0, Time.zero, [1], none, reliable, priorityNormal⟩ order

theorem subscribe_joins_sampleConfig :
    ∃ b, step.run (new sampleConfig) [samplePublish [], samplePublish []] = some b ∧
      ∃ id b', b.subscribe false ⟨[1], false, 2, block, 0, 1⟩ = (.ok id, b') ∧
        b'.StartsWith id [1] ((ofTopic [1] ((new sampleConfig).published
          [samplePublish [], samplePublish []])).filter fun frame => 1 < frame.sequence) := by
  have h := (subscribe_joins sampleConfig (by decide)
    [samplePublish [], samplePublish []] rfl rfl
    (o := ⟨[1], false, 2, block, 0, 1⟩) rfl rfl).1 (by decide)
  rcases h with h | ⟨id, b', hsub, hstarts, _⟩
  · exact nomatch h
  · exact ⟨_, rfl, id, b', hsub, hstarts⟩

/-- Who resumes from a number that is ahead of the bus is sent frames with
smaller numbers. -/
theorem follows_smaller_number : ∃ b b' b'' s frame,
      step.run (new sampleConfig) [samplePublish []] = some b ∧
      b.subscribe false ⟨[1], false, 2, block, 0, 10⟩ = (.ok 1, b') ∧
      step.run b' [samplePublish [1]] = some b'' ∧
      step.AllSteps (Undisturbed 1) b' [samplePublish [1]] ∧
      b''.subs 1 = some s ∧ frame ∈ s.held 1 ∧ ¬10 < frame.sequence := by
  refine ⟨_, _, _, _, _, rfl, rfl, rfl, ?_, rfl, List.mem_cons_self, ?_⟩
  · refine ⟨fun _ => ⟨rfl, ?_⟩, fun _ _ => trivial⟩
    intro s hs _
    cases hs
    decide
  · decide

end InMemory

end GoWarp.StreamBus
