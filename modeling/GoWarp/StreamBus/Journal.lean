import GoWarp.StreamBus.Routing

/-!
# What the journals retain

The journal of a topic holds the last frames published on the topic, as many
as the bus is configured to retain.  The frames published one after the other
have increasing sequence numbers.
-/

namespace GoWarp.StreamBus

open Support

/-- The frames of a topic among the frames of a list. -/
def ofTopic (topic : Bytes) (frames : List Frame) : List Frame :=
  frames.filter fun frame => frame.topic = topic

@[simp] theorem ofTopic_append (topic : Bytes) (frames frames' : List Frame) :
    ofTopic topic (frames ++ frames') = ofTopic topic frames ++ ofTopic topic frames' :=
  List.filter_append _ _

theorem mem_ofTopic {topic : Bytes} {frames : List Frame} {frame : Frame} :
    frame ∈ ofTopic topic frames ↔ frame ∈ frames ∧ frame.topic = topic := by
  rw [ofTopic, List.mem_filter, decide_eq_true_eq]

theorem ofTopic_singleton (topic : Bytes) (frame : Frame) :
    ofTopic topic [frame] = if frame.topic = topic then [frame] else [] := by
  by_cases h : frame.topic = topic
  · simp [ofTopic, h]
  · simp [ofTopic, h]

def InOrder (frames : List Frame) : Prop := frames.Pairwise fun f g => f.sequence < g.sequence

namespace InMemory

/-! ## Journals -/

/-- The number of frames the bus retains for each topic. -/
def retention (b : InMemory) : ℕ := b.config.replayCapacity.toNat

def retained (b : InMemory) (topic : Bytes) : List Frame :=
  ((b.replay topic).map ReplayBuffer.contents).getD []

/-- The journals hold the last frames of a history. -/
structure Retains (b : InMemory) (history : List Frame) : Prop where
  pos : 0 < b.config.replayCapacity
  capacity : ∀ topic journal, b.replay topic = some journal → journal.capacity = b.retention
  eq : ∀ topic, b.retained topic = (ofTopic topic history).rtake b.retention

theorem retains_new {config : Config} (hpos : 0 < config.replayCapacity) :
    (new config).Retains [] where
  pos := hpos
  capacity := fun _ _ h => nomatch h
  eq := fun _ => (List.rtake_nil _).symm

variable {b : InMemory} {history : List Frame}

section

variable (h : b.Retains history)
include h

theorem Retains.congr {b' : InMemory} (hconfig : b'.config = b.config)
    (hreplay : b'.replay = b.replay) : b'.Retains history := by
  obtain ⟨hpos, hcapacity, heq⟩ := h
  refine ⟨?_, ?_, ?_⟩
  · rwa [hconfig]
  · rwa [hreplay, retention, hconfig]
  · intro topic
    rw [retained, retention, hreplay, hconfig]
    exact heq topic

theorem Retains.retention_pos : 0 < b.retention := by
  have hpos := h.pos
  rw [retention]
  omega

theorem journalOf_spec (topic : Bytes) : (b.journalOf h.pos topic).capacity = b.retention ∧
      (b.journalOf h.pos topic).contents = b.retained topic := by
  rw [journalOf, retained]
  rcases hjournal : b.replay topic with _ | journal
  · exact ⟨List.length_replicate, rfl⟩
  · exact ⟨h.capacity topic journal hjournal, rfl⟩

theorem Retains.addToJournal (frame : Frame) :
    (b.addToJournal frame).Retains (history ++ [frame]) := by
  obtain ⟨hcapacity, hcontents⟩ := journalOf_spec h frame.topic
  rw [InMemory.addToJournal, dif_pos h.pos]
  refine ⟨h.pos, ?_, ?_⟩
  · intro topic journal hjournal
    by_cases htopic : topic = frame.topic
    · subst htopic
      have hself := (Function.update_self _ _ _).symm.trans hjournal
      cases hself
      rw [ReplayBuffer.capacity_add]
      exact hcapacity
    · exact h.capacity topic journal ((Function.update_of_ne htopic _ _).symm.trans hjournal)
  · intro topic
    have heq := h.eq topic
    rw [ofTopic_append, ofTopic_singleton]
    by_cases htopic : frame.topic = topic
    · subst htopic
      rw [if_pos rfl]
      change ((Function.update b.replay frame.topic _ frame.topic).map
        ReplayBuffer.contents).getD [] = _
      rw [Function.update_self, Option.map_some, Option.getD_some,
        ReplayBuffer.contents_add, hcontents, hcapacity, heq,
        rtake_rtake_concat]
      rfl
    · rw [if_neg htopic, List.append_nil]
      change ((Function.update b.replay frame.topic _ topic).map ReplayBuffer.contents).getD [] = _
      rw [Function.update_of_ne (.symm htopic)]
      exact heq

end

/-! ## What is replayed -/

theorem checkOptions_ok {o : SubscribeOptions}
    {options : ValidOptions} (h : b.checkOptions o = .ok options) (hexact : o.isPrefix = false) :
    options.topic = o.topic ∧ options.isPrefix = false ∧ options.since = o.since ∧
      (0 < o.replay → options.replay = o.replay) := by
  rw [checkOptions] at h
  by_cases htopic : o.topic = []
  · rw [dif_pos htopic] at h
    cases h
  · rw [dif_neg htopic] at h
    dsimp only at h
    by_cases hbuffer : (if o.buffer = 0 then b.config.defaultBuffer else o.buffer) < 1 ∨
          b.config.maxBuffer <
            if o.buffer = 0 then b.config.defaultBuffer else o.buffer
    · rw [dif_pos hbuffer] at h
      cases h
    · rw [dif_neg hbuffer] at h
      cases h
      refine ⟨rfl, hexact, ?_, ?_⟩
      · simp [hexact]
      · intro hpos
        have hnonneg : ¬o.replay < 0 := by omega
        simp [hexact, hnonneg]

variable {o : ValidOptions} {config : Config}

theorem replayFor_error {e : BusError} (h : b.replayFor o = .error e) : e = .replayUnavailable := by
  rw [replayFor] at h
  rcases hjournal : b.replay o.topic with _ | journal
  · rw [hjournal] at h
    dsimp only at h
    split at h
    · exact (Except.error.inj h).symm
    · cases h
  · rw [hjournal] at h
    dsimp only at h
    split at h
    · split at h
      · exact (Except.error.inj h).symm
      · cases h
    · split at h
      · cases h
      · cases h

theorem replayFor_since {frames : List Frame} (hpos : 0 < o.since)
    (h : b.replayFor o = .ok frames) :
    frames = (b.retained o.topic).filter (fun f => o.since < f.sequence) ∧
      frames.length ≤ o.buffer.toNat ∧
      ∀ journal, b.replay o.topic = some journal → (journal.after o.since).2 = false := by
  rw [replayFor] at h
  rcases hjournal : b.replay o.topic with _ | journal
  · rw [hjournal] at h
    dsimp only at h
    split at h
    · cases h
    · cases h
      rw [retained, hjournal]
      exact ⟨rfl, Nat.zero_le _, fun _ hnone => nomatch hnone⟩
  · rw [hjournal] at h
    dsimp only at h
    rw [if_pos hpos] at h
    split at h
    · cases h
    next hfits =>
      cases h
      obtain ⟨hgap, hbuffer⟩ := not_or.mp hfits
      have hgap := Bool.eq_false_of_not_eq_true hgap
      refine ⟨?_, ?_, ?_⟩
      · rw [retained, hjournal]
        exact ReplayBuffer.after_eq hgap
      · omega
      · intro journal' heq
        cases heq
        exact hgap

theorem replayFor_replay (hsince : o.since = 0) (hpos : 0 < o.replay) :
    b.replayFor o = .ok ((b.retained o.topic).rtake o.replay.toNat) := by
  have hzero : ¬0 < o.since := by omega
  rw [replayFor, retained]
  rcases b.replay o.topic with _ | journal
  · dsimp only
    rw [if_neg fun h => hzero h.1, Option.map_none, Option.getD_none, List.rtake_nil]
  · dsimp only
    rw [if_neg hzero, if_pos hpos, ReplayBuffer.last_eq_rtake]
    rfl

theorem mem_retained_of_replayFor
    {frames : List Frame} (h : b.replayFor o = .ok frames) {frame : Frame}
    (hframe : frame ∈ frames) : frame ∈ b.retained o.topic := by
  by_cases hsince : 0 < o.since
  · rw [(replayFor_since hsince h).1] at hframe
    exact (List.mem_filter.mp hframe).1
  · by_cases hreplay : 0 < o.replay
    · have hzero : o.since = 0 := by omega
      rw [replayFor_replay hzero hreplay] at h
      cases h
      exact (rtake_sublist _ _).mem hframe
    · rw [replayFor] at h
      rcases hjournal : b.replay o.topic with _ | journal
      · rw [hjournal] at h
        dsimp only at h
        rw [if_neg fun h => hsince h.1] at h
        cases h
        exact absurd hframe List.not_mem_nil
      · rw [hjournal] at h
        dsimp only at h
        rw [if_neg hsince, if_neg hreplay] at h
        cases h
        exact absurd hframe List.not_mem_nil

theorem Retains.mem_history (h : b.Retains history) {topic : Bytes} {frame : Frame}
    (hframe : frame ∈ b.retained topic) :
    frame ∈ history ∧ frame.topic = topic := by
  rw [h.eq] at hframe
  exact mem_ofTopic.mp ((rtake_sublist _ _).mem hframe)

theorem Retains.filter_retained (h : b.Retains history) (horder : InOrder history) {topic : Bytes}
    {since : ℕ} (hpos : 0 < since)
    (hgap : ∀ journal, b.replay topic = some journal → (journal.after since).2 = false) :
    (b.retained topic).filter (fun f => since < f.sequence) =
      (ofTopic topic history).filter fun f => since < f.sequence := by
  have hretention := h.retention_pos
  have hretained := h.eq topic
  have hlen : (b.retained topic).length = min b.retention (ofTopic topic history).length := by
    rw [hretained, length_rtake]
  rcases hjournal : b.replay topic with _ | journal
  · have hnil : b.retained topic = [] := by
      rw [retained, hjournal]
      rfl
    rw [hnil, List.length_nil] at hlen
    have hzero : (ofTopic topic history).length = 0 := by omega
    rw [hnil, List.length_eq_zero_iff.mp hzero]
  · have hcontents : b.retained topic = journal.contents := by
      rw [retained, hjournal]
      rfl
    have hcapacity := h.capacity topic journal hjournal
    have hjlen : journal.len = (b.retained topic).length := by
      rw [hcontents, ReplayBuffer.length_contents]
    by_cases hfull : journal.len = journal.capacity
    · have hle : journal.oldest.sequence ≤ since := by
        by_contra hlt
        have hgap' := ReplayBuffer.after_gap_iff.mpr
          ⟨hfull, Nat.ne_of_gt hpos, Nat.lt_of_not_le hlt⟩
        rw [hgap journal hjournal] at hgap'
        cases hgap'
      have hne : journal.len ≠ 0 := by
        have hcap := journal.capacity_pos
        omega
      obtain ⟨rest, hrest⟩ := List.head?_eq_some_iff.mp (ReplayBuffer.oldest_eq_head hne)
      rw [← hcontents, hretained] at hrest
      rw [hretained]
      exact filter_rtake_of_head (.sublist List.filter_sublist horder) hrest hle
    · have hle := journal.len_le
      have hall : (ofTopic topic history).length ≤ b.retention := by
        rw [ReplayBuffer.capacity] at hcapacity hfull
        omega
      rw [hretained, rtake_of_length_le hall]

/-! ## What operations do to the journals -/

/-- The two buses have the same configuration, journals and counter. -/
structure SameJournals (b b' : InMemory) : Prop where
  config : b'.config = b.config
  replay : b'.replay = b.replay
  seq : b'.seq = b.seq

theorem SameJournals.trans {b' b'' : InMemory} (h : SameJournals b b')
    (h' : SameJournals b' b'') : SameJournals b b'' :=
  ⟨h'.config.trans h.config, h'.replay.trans h.replay, h'.seq.trans h.seq⟩

theorem sameJournals_remove (b : InMemory) (id : ℕ) (o : ValidOptions) :
    SameJournals b (b.remove id o) := by
  rw [remove]
  split
  · exact ⟨rfl, rfl, rfl⟩
  · dsimp only
    split
    · exact ⟨rfl, rfl, rfl⟩
    · exact ⟨rfl, rfl, rfl⟩

theorem sameJournals_register (b : InMemory) (s : Subscription) :
    SameJournals b (b.register s) := by
  rw [register]
  split
  · exact ⟨rfl, rfl, rfl⟩
  · exact ⟨rfl, rfl, rfl⟩

theorem sameJournals_subscribe (b : InMemory) (ctxDone : Bool)
    (o : SubscribeOptions) : SameJournals b (b.subscribe ctxDone o).2 := by
  have hid : SameJournals b b.takeId := ⟨rfl, rfl, rfl⟩
  rcases b.subscribe_cases ctxDone o with
    ⟨e, heq⟩ | ⟨e, options, heq⟩ | ⟨options, frames, _, _, _, heq⟩
  · rw [heq]
    exact ⟨rfl, rfl, rfl⟩
  · rw [heq]
    exact hid.trans (sameJournals_remove b.takeId (b.subSeq + 1) options)
  · rw [heq]
    exact hid.trans (sameJournals_register b.takeId _)

theorem sameJournals_closeSub (b : InMemory) (id : ℕ) : SameJournals b (b.closeSub id) := by
  rw [closeSub]
  split
  · exact ⟨rfl, rfl, rfl⟩
  · split
    · exact ⟨rfl, rfl, rfl⟩
    · have hset (s : Subscription) : SameJournals b (b.setSub s) :=
        ⟨rfl, rfl, rfl⟩
      exact (hset _).trans (sameJournals_remove (b.setSub _) id _)

theorem sameJournals_foldl_closeSub (order : List ℕ) (b : InMemory) :
    SameJournals b (order.foldl closeSub b) := by
  induction order generalizing b with
  | nil => exact ⟨rfl, rfl, rfl⟩
  | cons id rest ih => exact (b.sameJournals_closeSub id).trans (ih (b.closeSub id))

theorem sameJournals_close (b : InMemory) (order : List ℕ) : SameJournals b (b.close order) := by
  rw [close]
  split
  · exact ⟨rfl, rfl, rfl⟩
  · have hempty : SameJournals b b.emptied := ⟨rfl, rfl, rfl⟩
    exact hempty.trans (sameJournals_foldl_closeSub order b.emptied)

theorem sameJournals_enqueueTo (b : InMemory) (frame : Frame) (id : ℕ) :
    SameJournals b (b.enqueueTo frame id).2 := by
  rw [enqueueTo]
  split
  · exact ⟨rfl, rfl, rfl⟩
  · split
    · exact ⟨rfl, rfl, rfl⟩
    · exact ⟨rfl, rfl, rfl⟩
    · exact ⟨rfl, rfl, rfl⟩

theorem sameJournals_fanOut (b : InMemory) (frame : Frame) (order : List ℕ) :
    SameJournals b (b.fanOut frame order).2 := by
  induction order generalizing b with
  | nil => exact ⟨rfl, rfl, rfl⟩
  | cons id rest ih =>
    have hone := b.sameJournals_enqueueTo frame id
    rw [fanOut]
    rcases hres : b.enqueueTo frame id with ⟨_ | e, b'⟩
    · rw [hres] at hone
      exact hone.trans (ih b')
    · rw [hres] at hone
      exact hone

/-- The frame an operation publishes, if it is a `Publish` that gets as far as
the journal. -/
def publishedBy (b : InMemory) : Op → Option Frame
  | .publish ctxDone now frame _ =>
    if b.publishError ctxDone frame = none ∧ b.closed = false then
      some (b.stamp now frame)
    else
      none
  | _ => none

/-- The frames published in a run, in order. -/
def published (b : InMemory) (ops : List Op) : List Frame := step.emitted publishedBy b ops

theorem publish_cases (b : InMemory) (ctxDone : Bool) (now : Time)
    (frame : Frame) (order : List ℕ) :
    (b.publishedBy (.publish ctxDone now frame order) = none ∧
        ((b.publish ctxDone now frame order).2 = b ∨
          (b.publish ctxDone now frame order).2 = b.takeNumber)) ∨
      (b.publishedBy (.publish ctxDone now frame order) = some (b.stamp now frame) ∧
        b.publishError ctxDone frame = none ∧ b.closed = false ∧
        (b.publish ctxDone now frame order).2 =
          ((b.takeNumber.addToJournal (b.stamp now frame)).fanOut (b.stamp now frame) order).2 ∧
        (b.publish ctxDone now frame order).1.2 =
          ((b.takeNumber.addToJournal (b.stamp now frame)).fanOut
            (b.stamp now frame) order).1) := by
  rw [publishedBy, publish]
  rcases herr : b.publishError ctxDone frame with _ | e
  · dsimp only
    rw [route]
    rcases hclosed : b.closed with _ | _
    · refine .inr ⟨if_pos ⟨rfl, rfl⟩, rfl, rfl, ?_⟩
      have hopen : ¬b.takeNumber.closed = true := by
        change ¬b.closed = true
        rw [hclosed]
        exact Bool.false_ne_true
      rw [if_neg hopen]
      exact ⟨rfl, rfl⟩
    · have hbus : b.takeNumber.closed = true := hclosed
      refine .inl ⟨if_neg fun h => Bool.false_ne_true h.2.symm, .inr ?_⟩
      rw [if_pos hbus]
  · exact .inl ⟨if_neg fun h => Option.some_ne_none e h.1, .inl rfl⟩

theorem replay_addToJournal_takeNumber (b : InMemory) (frame : Frame) :
    (b.takeNumber.addToJournal frame).replay = (b.addToJournal frame).replay := by
  rw [addToJournal, addToJournal]
  by_cases hpos : 0 < b.config.replayCapacity
  · have hpos' : 0 < b.takeNumber.config.replayCapacity := hpos
    rw [dif_pos hpos, dif_pos hpos']
    rfl
  · have hpos' : ¬0 < b.takeNumber.config.replayCapacity := hpos
    rw [dif_neg hpos, dif_neg hpos']
    rfl

theorem step_journals {b' : InMemory} {op : Op} (h : step b op = some b') :
    (b.publishedBy op = none ∧ b'.config = b.config ∧ b'.replay = b.replay ∧ b.seq ≤ b'.seq) ∨
      ∃ frame, b.publishedBy op = some frame ∧ frame.sequence = b.seq + 1 ∧
        b'.seq = b.seq + 1 ∧ b'.config = b.config ∧
        b'.replay = (b.addToJournal frame).replay := by
  have hsame : ∀ b'', SameJournals b b'' → b''.config = b.config ∧
      b''.replay = b.replay ∧ b.seq ≤ b''.seq := fun b'' hsame =>
    ⟨hsame.config, hsame.replay, hsame.seq.ge⟩
  cases op with
  | publish ctxDone now frame order =>
    rw [step] at h
    split at h
    · cases h
      rcases b.publish_cases ctxDone now frame order with
        ⟨hnone, heq | heq⟩ | ⟨hsome, _, _, heq, _⟩
      · rw [heq]
        exact .inl ⟨hnone, rfl, rfl, Nat.le_refl _⟩
      · rw [heq]
        exact .inl ⟨hnone, rfl, rfl, Nat.le_succ _⟩
      · have hfan := sameJournals_fanOut (b.takeNumber.addToJournal (b.stamp now frame))
          (b.stamp now frame) order
        obtain ⟨_, _, _, _, hseq, hconfig⟩ := b.takeNumber.addToJournal_fields (b.stamp now frame)
        refine .inr ⟨b.stamp now frame, hsome, rfl, ?_, ?_, ?_⟩
        · rw [heq, hfan.seq, hseq]
          rfl
        · rw [heq, hfan.config, hconfig]
          rfl
        · rw [heq, hfan.replay, replay_addToJournal_takeNumber]
    · cases h
  | subscribe ctxDone o =>
    cases h
    exact .inl ⟨rfl, hsame _ (b.sameJournals_subscribe ctxDone o)⟩
  | closeSub id =>
    cases h
    exact .inl ⟨rfl, hsame _ (b.sameJournals_closeSub id)⟩
  | close order =>
    rw [step] at h
    split at h
    · cases h
      exact .inl ⟨rfl, hsame _ (b.sameJournals_close order)⟩
    · cases h
  | pump id =>
    rw [step, Option.map_eq_some_iff] at h
    obtain ⟨s', _, rfl⟩ := h
    exact .inl ⟨rfl, rfl, rfl, Nat.le_refl _⟩
  | receive id =>
    rw [step, Option.map_eq_some_iff] at h
    obtain ⟨r, _, rfl⟩ := h
    exact .inl ⟨rfl, rfl, rfl, Nat.le_refl _⟩

/-! ## Every run -/

/-- The journals hold the last frames of the history, whose numbers increase
up to the counter of the bus. -/
structure Journaled (b : InMemory) (history : List Frame) : Prop where
  retains : b.Retains history
  inOrder : InOrder history
  le_seq : ∀ frame ∈ history, frame.sequence ≤ b.seq

theorem journaled_new (hpos : 0 < config.replayCapacity) : (new config).Journaled [] :=
  ⟨retains_new hpos, List.Pairwise.nil, fun _ h => nomatch h⟩

theorem Journaled.step {b' : InMemory} {op : Op}
    (h : b.Journaled history) (hstep : InMemory.step b op = some b') :
    b'.Journaled (history ++ (b.publishedBy op).toList) := by
  obtain ⟨hretains, horder, hle⟩ := h
  rcases step_journals hstep with
    ⟨hnone, hconfig, hreplay, hseq⟩ | ⟨frame, hsome, hnumber, hseq, hconfig, hreplay⟩
  · rw [hnone, Option.toList_none, List.append_nil]
    exact ⟨hretains.congr hconfig hreplay, horder, fun frame hframe =>
      (hle frame hframe).trans hseq⟩
  · rw [hsome, Option.toList_some]
    refine ⟨?_, ?_, ?_⟩
    · obtain ⟨_, _, _, _, _, hkeep⟩ := b.addToJournal_fields frame
      exact (hretains.addToJournal frame).congr (hconfig.trans hkeep.symm) hreplay
    · refine List.pairwise_append.mpr ⟨horder, List.pairwise_singleton _ _, ?_⟩
      intro f hf g hg
      rw [List.mem_singleton] at hg
      have hf' := hle f hf
      rw [hg, hnumber]
      omega
    · intro f hf
      rcases List.mem_append.mp hf with hf | hf
      · have hf' := hle f hf
        omega
      · rw [List.mem_singleton] at hf
        rw [hf, hnumber, hseq]

theorem journaled_run (hpos : 0 < config.replayCapacity) {ops : List Op}
    (hrun : step.run (new config) ops = some b) :
    b.Journaled ((new config).published ops) := by
  have hend := step.run_history publishedBy (fun _ _ _ _ h hstep => .step h hstep) hrun
    (journaled_new hpos)
  rwa [List.nil_append] at hend

theorem retention_run {ops : List Op} (hrun : step.run (new config) ops = some b) :
    b.retention = config.replayCapacity.toNat := by
  have hconfig : b.config = (new config).config := by
    refine step.run_invariant (I := fun b => b.config = (new config).config) ?_ hrun rfl
    intro b op b' hb hstep
    rcases step_journals hstep with
      ⟨_, hconfig, _, _⟩ | ⟨_, _, _, _, hconfig, _⟩
    · exact hconfig.trans hb
    · exact hconfig.trans hb
  rw [retention, hconfig]
  rfl

end InMemory

end GoWarp.StreamBus
