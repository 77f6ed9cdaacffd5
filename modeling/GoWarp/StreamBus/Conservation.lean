import GoWarp.StreamBus.Endpoint

/-!
# No frame is lost or counted twice

A frame is accepted when it is preloaded, or when a call of
`Subscription.enqueue` is certain to return nil: it has returned nil, or it has
put the frame into the queue and has only the signal left to send.  Whatever
the goroutines do, every accepted frame has been delivered, has been dropped, is
in the queue, or is in the hands of the delivery goroutine, and the counters
agree.
-/

namespace GoWarp.StreamBus

open Support
open List (append_assoc append_nil length_append nil_append)

/-- The frame of a call that returns nil. -/
def EnqueueCall.acceptedFrame (c : EnqueueCall) : Option Frame :=
  if c.phase = .signalling ∨ c.phase = .returned none then some c.frame
  else none

namespace Endpoint

/-- The frames of the calls that return nil. -/
def accepted (e : Endpoint) : List Frame := e.calls.filterMap EnqueueCall.acceptedFrame

/-- The frames that have been dropped, by the preload or for a call. -/
def droppedFrames (e : Endpoint) : List Frame := e.ledger.evicted ++ e.ledger.dropped.map Prod.snd

/-- The frames that have entered the queue, in order. -/
def enteredFrames (e : Endpoint) : List Frame := e.ledger.entered.map Prod.snd

/-! ## What is accepted -/

section Accepted

variable {e : Endpoint} {i : ℕ} {c : EnqueueCall} {phase : CallPhase}

theorem accepted_goto_of_eq (hc : e.calls[i]? = some c)
    (h : EnqueueCall.acceptedFrame { c with phase := phase } =
      c.acceptedFrame) : (e.goto i c phase).accepted = e.accepted :=
  Entries.filterMap_set_of_eq _ hc h

theorem accepted_goto (hc : e.calls[i]? = some c)
    (hphase : c.phase ≠ .signalling ∧ c.phase ≠ .returned none)
    (hnew : phase ≠ .signalling ∧ phase ≠ .returned none) :
    (e.goto i c phase).accepted = e.accepted := by
  apply accepted_goto_of_eq hc
  simp [EnqueueCall.acceptedFrame, hphase, hnew]

theorem accepted_goto_accept (hc : e.calls[i]? = some c)
    (hphase : c.phase ≠ .signalling ∧ c.phase ≠ .returned none)
    (hnew : phase = .signalling ∨ phase = .returned none) :
    (e.goto i c phase).accepted.Perm (c.frame :: e.accepted) := by
  apply Entries.filterMap_set_perm _ hc
  · simp [EnqueueCall.acceptedFrame, hphase]
  · simp [EnqueueCall.acceptedFrame, hnew]

theorem not_accepted_of_trying (h : c.phase = .trying ∨ c.phase = .woken) :
    c.phase ≠ .signalling ∧ c.phase ≠ .returned none := by
  rcases h with h | h
  all_goals simp [h]

end Accepted

/-! ## The invariant -/

/-- Every accepted frame is in one place, the counters count, and the frames of
a class are in the order in which they entered. -/
structure Conserved (e : Endpoint) : Prop where
  pos : 0 < e.sub.queue.capacity
  balance : (e.ledger.preloaded ++ e.accepted).Perm
    (e.ledger.delivered ++ e.droppedFrames ++ e.sub.queue.frames ++ e.sub.inFlight.toList)
  delivered : e.ledger.delivered.length = e.sub.delivered + if e.run = .sent then 1 else 0
  dropped : e.droppedFrames.length = e.sub.dropped
  order : ∀ p, (FrameQueue.classPart p e.ledger.delivered ++ e.sub.held p).Sublist
    (FrameQueue.classPart p e.enteredFrames)

namespace Conserved

variable {e e' : Endpoint}

theorem new (id : ℕ) (options : ValidOptions) : (Endpoint.new id options).Conserved where
  pos := options.toNat_buffer_pos
  balance := .refl _
  delivered := rfl
  dropped := rfl
  order _ := .refl _

variable (h : e.Conserved)
include h

theorem quiet (hsub : e'.sub = e.sub)
    (hledger : e'.ledger = e.ledger) (haccepted : e'.accepted = e.accepted)
    (hsent : e'.run = .sent ↔ e.run = .sent) : e'.Conserved where
  pos := by
    rw [hsub]
    exact h.pos
  balance := by
    rw [droppedFrames, hsub, hledger, haccepted]
    exact h.balance
  delivered := by
    rw [hsub, hledger, h.delivered]
    simp only [hsent]
  dropped := by
    rw [droppedFrames, hsub, hledger]
    exact h.dropped
  order := by
    rw [enteredFrames, hsub, hledger]
    exact h.order

theorem offer {offered enters drops : List Frame}
    (hacc : e.sub.Accounted e'.sub offered enters drops)
    (haccepted : (e'.ledger.preloaded ++ e'.accepted).Perm
      ((e.ledger.preloaded ++ e.accepted) ++ offered))
    (hdropped : e'.droppedFrames.Perm (e.droppedFrames ++ drops))
    (hentered : e'.enteredFrames = e.enteredFrames ++ enters)
    (hdelivered : e'.ledger.delivered = e.ledger.delivered)
    (hrun : e'.run = e.run) : e'.Conserved where
  pos := by
    rw [hacc.capacity]
    exact h.pos
  balance := by
    rw [hdelivered, hacc.inFlight]
    apply List.perm_iff_count.mpr
    intro f
    have hbalance := h.balance.count_eq f
    have hnew := haccepted.count_eq f
    have hdrop := hdropped.count_eq f
    have hqueue := hacc.perm.count_eq f
    simp only [List.count_append] at hbalance hnew hdrop hqueue ⊢
    omega
  delivered := by
    rw [hdelivered, hacc.delivered, hrun]
    exact h.delivered
  dropped := by rw [hdropped.length_eq, length_append, h.dropped, hacc.dropped]
  order p := by
    have hheld : (e'.sub.held p).Sublist (e.sub.held p ++ FrameQueue.classPart p enters) := by
      rw [Subscription.held, Subscription.held, hacc.inFlight, append_assoc]
      exact (hacc.sublist p).append_left _
    rw [hdelivered, hentered, FrameQueue.classPart_append]
    refine (hheld.append_left _).trans ?_
    rw [← append_assoc]
    exact (h.order p).append_right _

theorem pop {sub : Subscription} (hpump : e.sub.pump = some sub) (hrun : e.run ≠ .sent) :
    ({ e with sub := sub, run := .popped } : Endpoint).Conserved := by
  obtain ⟨frame, q, hflight, hpop, rfl⟩ := Subscription.pump_eq_some hpump
  obtain ⟨p, hp⟩ := FrameQueue.pop_eq_some hpop
  refine ⟨?_, ?_, ?_, h.dropped, fun p => ?_⟩
  · change 0 < q.capacity
    rw [(FrameQueue.popClass_eq_some hp).2.2.2]
    exact h.pos
  · refine h.balance.trans ?_
    have hframes := FrameQueue.frames_popClass hp
    rw [append_nil] at hframes
    rw [hflight, Option.toList_none, append_nil]
    refine (hframes.append_left _).trans ?_
    rw [← append_assoc]
    exact .refl _
  · have hdelivered := h.delivered
    rw [if_neg hrun] at hdelivered
    exact hdelivered
  · have horder := h.order p
    rw [← Subscription.held_pump hpump] at horder
    exact horder

theorem receive {frame : Frame} (hflight : e.sub.inFlight = some frame) (hrun : e.run ≠ .sent) :
    ({ e with
      sub := { e.sub with inFlight := none }
      run := .sent
      ledger := e.ledger.deliver frame } : Endpoint).Conserved := by
  refine ⟨h.pos, ?_, ?_, h.dropped, fun p => ?_⟩
  · refine h.balance.trans ?_
    rw [hflight]
    apply List.perm_iff_count.mpr
    intro f
    simp only [Ledger.deliver, droppedFrames, List.count_append,
      Option.toList_some, Option.toList_none, List.count_nil]
    omega
  · have hdelivered := h.delivered
    rw [if_neg hrun] at hdelivered
    change (e.ledger.delivered ++ [frame]).length = e.sub.delivered + 1
    rw [length_append, hdelivered]
    rfl
  · have horder := h.order p
    rw [Subscription.held, hflight, ← append_assoc] at horder
    change (FrameQueue.classPart p (e.ledger.delivered ++ [frame]) ++
      e.sub.queue.contents p).Sublist _
    rw [FrameQueue.classPart_append]
    exact horder

theorem count (hrun : e.run = .sent) : ({ e with
      sub := e.sub.countDelivered
      run := .draining } : Endpoint).Conserved := by
  refine ⟨h.pos, h.balance, ?_, h.dropped, h.order⟩
  have hdelivered := h.delivered
  rw [if_pos hrun] at hdelivered
  exact hdelivered

theorem ofCall {i : ℕ} {c : EnqueueCall} {a : CallEvent}
    (hc : e.calls[i]? = some c) (hmoves : CallMoves e i c a e') :
    e'.Conserved := by
  cases hmoves with
  | cancelParked hphase =>
    refine h.quiet rfl rfl ?_ Iff.rfl
    apply Entries.filterMap_set_of_eq _ hc
    simp [EnqueueCall.acceptedFrame, hphase]
  | cancel hphase =>
    refine h.quiet rfl rfl ?_ Iff.rfl
    exact Entries.filterMap_set_of_eq _ hc rfl
  | done hphase henqueue | block hphase henqueue =>
    refine h.quiet rfl rfl ?_ Iff.rfl
    exact accepted_goto hc (not_accepted_of_trying hphase) (by simp)
  | accept hphase sub henqueue =>
    have hacc := Subscription.accounted_enqueue h.pos henqueue
    refine h.offer hacc ?_ ?_ ?_ rfl rfl
    · have haccepted : (e.goto i c (if e.sub.enters c.frame = [] then
          .returned none else .signalling)).accepted.Perm
          (c.frame :: e.accepted) := by
        apply accepted_goto_accept hc (not_accepted_of_trying hphase)
        split
        next => exact .inr rfl
        next => exact .inl rfl
      rw [append_assoc]
      apply List.Perm.append_left
      exact haccepted.trans (List.perm_append_singleton _ _).symm
    · simp [droppedFrames, goto, Ledger.accept]
    · simp [enteredFrames, goto, Ledger.accept]
  | park hphase hspace hctx hdone | takeSpace hphase hspace
  | giveUp hphase hctx =>
    refine h.quiet rfl rfl ?_ Iff.rfl
    exact accepted_goto hc (by simp [hphase]) (by simp)
  | seeDone hphase hdone =>
    refine h.quiet rfl rfl ?_ Iff.rfl
    refine accepted_goto hc ?_ (by simp)
    rcases hphase with hphase | hphase
    all_goals simp [hphase]
  | signal hphase =>
    refine h.quiet rfl rfl ?_ Iff.rfl
    apply accepted_goto_of_eq hc
    simp [EnqueueCall.acceptedFrame, hphase]

theorem step {a : EndpointEvent} (hmoves : Moves e a e') : e'.Conserved := by
  cases hmoves with
  | preload frames hsetup =>
    refine h.offer (Subscription.accounted_preload h.pos frames) ?_ ?_ ?_
      rfl rfl
    · change ((e.ledger.preloaded ++ frames) ++ e.accepted).Perm _
      rw [append_assoc, append_assoc]
      exact List.perm_append_comm.append_left _
    · change ((e.ledger.evicted ++ _) ++ _).Perm ((_ ++ _) ++ _)
      rw [append_assoc, append_assoc]
      exact List.perm_append_comm.append_left _
    · simp [enteredFrames, Ledger.preload, Function.comp_def]
  | preloadSignal hsetup | register hsetup | closeDone hclosed =>
    exact h.quiet rfl rfl rfl Iff.rfl
  | call frame ctxDone hsetup =>
    refine h.quiet rfl rfl ?_ Iff.rfl
    simp [accepted, EnqueueCall.acceptedFrame]
  | ofCall i c a e' hc hmoves => exact h.ofCall hc hmoves
  | takeNotify hrun hnotify | popNothing hrun hpump
  | signalSpace hrun hparked => exact h.quiet rfl rfl rfl (by simp [hrun])
  | pop hrun sub hpump => exact h.pop hpump (by simp [hrun])
  | wake i c hc hrun hphase =>
    refine h.quiet rfl rfl ?_ (by simp [goto, hrun])
    exact accepted_goto hc (by simp [hphase]) (by simp)
  | receive frame hrun hflight => exact h.receive hflight (by simp [hrun])
  | count hrun => exact h.count hrun
  | stop hrun =>
    refine h.quiet rfl rfl rfl ?_
    rcases hrun with hrun | hrun
    all_goals simp [hrun]
  | markClosed => exact ⟨h.pos, h.balance, h.delivered, h.dropped, h.order⟩

end Conserved

variable {options : ValidOptions} {e e' : Endpoint}

theorem Reachable.conserved (h : e.Reachable options) : e.Conserved :=
  h.invariant (fun id => .new id options) fun _ _ _ _ he hmoves => he.step hmoves

/-! ## Where frames are dropped -/

structure CallFrame (e e' : Endpoint) : Prop where
  run : e'.run = e.run
  setup : e'.setup = e.setup
  options : e'.sub.options = e.sub.options
  capacity : e'.sub.queue.capacity = e.sub.queue.capacity
  inFlight : e'.sub.inFlight = e.sub.inFlight
  closed : e'.sub.closed = e.sub.closed
  preloaded : e'.ledger.preloaded = e.ledger.preloaded
  evicted : e'.ledger.evicted = e.ledger.evicted

theorem CallMoves.callFrame {i : ℕ} {c : EnqueueCall} {a : CallEvent}
    (h : CallMoves e i c a e') (hpos : 0 < e.sub.queue.capacity) :
    CallFrame e e' := by
  cases h with
  | accept hphase sub henqueue =>
    have hacc := Subscription.accounted_enqueue hpos henqueue
    exact ⟨rfl, rfl, hacc.options, hacc.capacity, hacc.inFlight, hacc.closed,
      rfl, rfl⟩
  | _ => exact ⟨rfl, rfl, rfl, rfl, rfl, rfl, rfl, rfl⟩

variable {a : EndpointEvent}

theorem Moves.options_capacity (h : Moves e a e') (hpos : 0 < e.sub.queue.capacity) :
    e'.sub.options = e.sub.options ∧ e'.sub.queue.capacity = e.sub.queue.capacity := by
  cases h with
  | preload frames hsetup =>
    have hacc := Subscription.accounted_preload hpos frames
    exact ⟨hacc.options, hacc.capacity⟩
  | ofCall i c a e' hc hmoves =>
    have hframe := hmoves.callFrame hpos
    exact ⟨hframe.options, hframe.capacity⟩
  | pop hrun sub hpump =>
    obtain ⟨frame, q, -, hpop, rfl⟩ := Subscription.pump_eq_some hpump
    obtain ⟨p, hp⟩ := FrameQueue.pop_eq_some hpop
    exact ⟨rfl, (FrameQueue.popClass_eq_some hp).2.2.2⟩
  | _ => exact ⟨rfl, rfl⟩

theorem Moves.closed_mono (h : Moves e a e')
    (hpos : 0 < e.sub.queue.capacity) (hopen : e'.sub.closed = false) :
    e.sub.closed = false := by
  cases h with
  | preload frames hsetup =>
    rw [← (Subscription.accounted_preload hpos frames).closed]
    exact hopen
  | ofCall i c a e' hc hmoves =>
    rw [← (hmoves.callFrame hpos).closed]
    exact hopen
  | pop hrun sub hpump =>
    obtain ⟨frame, q, -, -, rfl⟩ := Subscription.pump_eq_some hpump
    exact hopen
  | markClosed => cases hopen
  | _ => exact hopen

theorem Reachable.options_capacity (h : e.Reachable options) : e.sub.options = options ∧
      e.sub.queue.capacity = options.buffer.toNat := by
  apply h.invariant
  · intro id
    exact ⟨rfl, rfl⟩
  · rintro e a e' hreach ⟨hoptions, hcapacity⟩ hmoves
    obtain ⟨hoptions', hcapacity'⟩ := hmoves.options_capacity hreach.conserved.pos
    exact ⟨hoptions'.trans hoptions, hcapacity'.trans hcapacity⟩

/-- The delivery goroutine has no frame in its hands. -/
def EmptyHanded (e : Endpoint) : Prop :=
  e.run = .waiting ∨ e.run = .draining ∨ e.run = .sent → e.sub.inFlight = none

theorem Moves.emptyHanded (h : Moves e a e')
    (hpos : 0 < e.sub.queue.capacity) (hempty : e.EmptyHanded) :
    e'.EmptyHanded := by
  intro hrun
  cases h with
  | preload frames hsetup =>
    rw [← hempty hrun]
    exact (Subscription.accounted_preload hpos frames).inFlight
  | ofCall i c a e' hc hmoves =>
    have hframe := hmoves.callFrame hpos
    rw [hframe.inFlight]
    apply hempty
    rwa [← hframe.run]
  | takeNotify hwaiting hnotify => exact hempty (.inl hwaiting)
  | pop hdraining sub hpump => simp at hrun
  | popNothing hdraining hpump => exact hempty (.inr (.inl hdraining))
  | wake i c hc hpopped hphase => simp [goto] at hrun
  | signalSpace hpopped hparked => simp at hrun
  | receive frame hsending hflight => rfl
  | count hsent => exact hempty (.inr (.inr hsent))
  | stop hstop => simp at hrun
  | _ => exact hempty hrun

theorem Reachable.emptyHanded (h : e.Reachable options) : e.EmptyHanded := by
  apply h.invariant
  · intro id _
    rfl
  · intro e a e' hreach hempty hmoves
    exact hmoves.emptyHanded hreach.conserved.pos hempty

/-- Before it is registered a subscription has frames of its preload only, and
the preload drops only such frames. -/
structure Preloaded (e : Endpoint) : Prop where
  created : e.setup = .created → e.sub.queue.frames = [] ∧
    e.ledger.preloaded = [] ∧ e.ledger.evicted = []
  calls : e.setup ≠ .registered → e.calls = []
  evicted : e.ledger.evicted.Subperm e.ledger.preloaded

theorem Preloaded.of_setup (h : e.Preloaded) (hsetup : e'.setup = .registered)
    (hledger : e'.ledger = e.ledger) : e'.Preloaded where
  created hcreated := by simp [hsetup] at hcreated
  calls hne := absurd hsetup hne
  evicted := hledger ▸ h.evicted

theorem Moves.preloaded (h : Moves e a e')
    (hpos : 0 < e.sub.queue.capacity) (hpre : e.Preloaded) : e'.Preloaded := by
  cases h with
  | preload frames hsetup =>
    obtain ⟨hframes, hnone, hevicted⟩ := hpre.created hsetup
    refine ⟨by simp, fun _ => hpre.calls (by simp [hsetup]), ?_⟩
    have hperm := (Subscription.accounted_preload hpos frames).perm
    rw [hframes, nil_append] at hperm
    change (e.ledger.evicted ++ e.sub.preloadDropsAll frames).Subperm (e.ledger.preloaded ++ frames)
    rw [hevicted, hnone, nil_append, nil_append]
    exact (List.sublist_append_right _ _).subperm.trans hperm.symm.subperm
  | preloadSignal hsetup =>
    exact ⟨by simp, fun _ => hpre.calls (by simp [hsetup]), hpre.evicted⟩
  | register hsetup => exact hpre.of_setup rfl rfl
  | call frame ctxDone hsetup => exact hpre.of_setup hsetup rfl
  | ofCall i c a e' hc hmoves =>
    have hframe := hmoves.callFrame hpos
    have hregistered : e.setup = .registered := by
      by_contra hne
      rw [hpre.calls hne] at hc
      cases hc
    refine ⟨?_, ?_, ?_⟩
    · simp [hframe.setup, hregistered]
    · simp [hframe.setup, hregistered]
    · rw [hframe.evicted, hframe.preloaded]
      exact hpre.evicted
  | pop hrun sub hpump =>
    refine ⟨fun hcreated => ?_, hpre.calls, hpre.evicted⟩
    obtain ⟨frame, q, -, hpop, -⟩ := Subscription.pump_eq_some hpump
    obtain ⟨p, hp⟩ := FrameQueue.pop_eq_some hpop
    have hperm := FrameQueue.frames_popClass hp
    rw [(hpre.created hcreated).1] at hperm
    exact absurd hperm.length_eq (by simp)
  | wake i c hc hrun hphase =>
    refine hpre.of_setup (Classical.not_not.mp fun hne => ?_) rfl
    rw [hpre.calls hne] at hc
    cases hc
  | _ => exact ⟨hpre.created, hpre.calls, hpre.evicted⟩

theorem Reachable.preloaded (h : e.Reachable options) : e.Preloaded := by
  apply h.invariant
  · intro id
    exact ⟨fun _ => ⟨rfl, rfl, rfl⟩, fun _ => rfl, List.Subperm.refl _⟩
  · intro e a e' hreach hpre hmoves
    exact hmoves.preloaded hreach.conserved.pos hpre

/-- What the calls drop under two of the policies. -/
structure DropsByPolicy (options : ValidOptions) (e : Endpoint) : Prop where
  blocks : options.Blocks → e.ledger.dropped = []
  newest : options.overflow = dropNewest → ∀ d ∈ e.ledger.dropped,
    ∃ c, e.calls[d.1]? = some c ∧ c.frame = d.2

theorem DropsByPolicy.quiet (h : e.DropsByPolicy options)
    (hmoves : Moves e a e') (hdropped : e'.ledger.dropped = e.ledger.dropped) :
    e'.DropsByPolicy options where
  blocks hblocks := hdropped.trans (h.blocks hblocks)
  newest hnewest d hd := by
    rw [hdropped] at hd
    obtain ⟨c, hc, hframe⟩ := h.newest hnewest d hd
    obtain ⟨c', hc', hframe'⟩ := hmoves.calls_persist hc
    exact ⟨c', hc', hframe'.trans hframe⟩

theorem Moves.dropsByPolicy (h : Moves e a e')
    (hoptions : e.sub.options = options) (hdrops : e.DropsByPolicy options) :
    e'.DropsByPolicy options := by
  have hmoves := h
  cases h with
  | ofCall i c a e' hc hcall =>
    cases hcall with
    | accept hphase sub henqueue =>
      constructor
      · intro hblocks
        have hnone : e.sub.drops c.frame = [] := Subscription.drops_of_blocks (hoptions ▸ hblocks)
        change e.ledger.dropped ++ (e.sub.drops c.frame).map _ = []
        rw [hdrops.blocks hblocks, hnone]
        rfl
      · intro hnewest d hd
        rcases List.mem_append.mp hd with hd | hd
        · obtain ⟨c', hc', hframe⟩ := hdrops.newest hnewest d hd
          obtain ⟨c'', hc'', hframe'⟩ := hmoves.calls_persist hc'
          exact ⟨c'', hc'', hframe'.trans hframe⟩
        · obtain ⟨f, hf, rfl⟩ := List.mem_map.mp hd
          obtain rfl : f = c.frame := by
            apply Subscription.drops_of_dropNewest _ f hf
            rw [hoptions, hnewest]
          exact hmoves.calls_persist hc
    | _ => exact hdrops.quiet hmoves rfl
  | _ => exact hdrops.quiet hmoves rfl

theorem Reachable.dropsByPolicy (h : e.Reachable options) : e.DropsByPolicy options := by
  apply h.invariant
  · intro id
    exact ⟨fun _ => rfl, fun _ d hd => absurd hd List.not_mem_nil⟩
  · intro e a e' hreach hdrops hmoves
    exact hmoves.dropsByPolicy hreach.options_capacity.1 hdrops

/-! ## The accounts of a subscription -/

/-- In every state of a subscription that the goroutines can bring about, the
accepted frames are the delivered ones, the dropped ones, the ones in the queue
and at most one in the hands of the delivery goroutine.  The counters agree up
to one frame, and the queue does not exceed its buffer.  `DropNewest` drops the
frame of the call, `Block` drops frames of the preload only, and the frames of
a priority class are delivered in the order in which they entered. -/
theorem frames_conserved (h : e.Reachable options) : (e.ledger.preloaded ++ e.accepted).Perm
      (e.ledger.delivered ++ e.droppedFrames ++ e.sub.queue.frames ++ e.sub.inFlight.toList) ∧
    (∃ n ≤ 1, (e.ledger.preloaded ++ e.accepted).length =
      e.sub.stats.delivered + e.sub.stats.dropped + e.sub.stats.queued + n) ∧
    (e.sub.queue.len : ℤ) ≤ options.buffer ∧
    (options.overflow = dropNewest → ∀ d ∈ e.ledger.dropped,
      ∃ c, e.calls[d.1]? = some c ∧ c.frame = d.2) ∧
    (options.Blocks → e.ledger.dropped = [] ∧ e.droppedFrames.Subperm e.ledger.preloaded) ∧
    ∀ p, (FrameQueue.classPart p e.ledger.delivered).Sublist
      (FrameQueue.classPart p e.enteredFrames) := by
  have hcons := h.conserved
  have hdrops := h.dropsByPolicy
  refine ⟨hcons.balance, ?_, ?_, hdrops.newest, ?_, ?_⟩
  · have hlength := hcons.balance.length_eq
    have hdelivered := hcons.delivered
    simp only [length_append, hcons.dropped, FrameQueue.length_frames] at hlength
    split at hdelivered
    next hsent =>
      rw [h.emptyHanded (.inr (.inr hsent))] at hlength
      refine ⟨1, Nat.le_refl 1, ?_⟩
      rw [length_append, hlength, hdelivered]
      simp only [Subscription.stats, Option.toList_none, List.length_nil]
      omega
    · refine ⟨e.sub.inFlight.toList.length, ?_, ?_⟩
      · rcases e.sub.inFlight with _ | frame
        all_goals simp
      · rw [length_append, hlength, hdelivered]
        simp only [Subscription.stats]
        omega
  · have hle := e.sub.queue.len_le
    have hpos := options.buffer_pos
    rw [h.options_capacity.2] at hle
    omega
  · intro hblocks
    have hnone := hdrops.blocks hblocks
    refine ⟨hnone, ?_⟩
    rw [droppedFrames, hnone, List.map_nil, append_nil]
    exact h.preloaded.evicted
  · intro p
    exact (List.sublist_append_left _ _).trans (hcons.order p)

/-- A frame of the runs below. -/
def numbered (sequence : ℕ) : Frame := ⟨sequence, Time.zero, [1], none, reliable, priorityNormal⟩

def withBuffer (buffer : ℤ) (overflow : UInt8) (hpos : 0 < buffer) :
    ValidOptions :=
  ⟨⟨[1], false, buffer, overflow, 0, 0⟩, by simp, hpos⟩

/-- The preload drops its first frame for its second one, and a call drops that
one for its own. -/
def overwriting : List EndpointEvent :=
  [.preload [numbered 1, numbered 2], .preloadSignal, .register,
    .call (numbered 3) false, .ofCall 0 .attempt, .takeNotify, .pop]

theorem frames_conserved_overwriting :
    ∃ e : Endpoint, e.Reachable (withBuffer 1 dropOldest (by decide)) ∧
      e.accepted = [numbered 3] ∧ e.sub.inFlight = some (numbered 3) ∧
      e.droppedFrames = [numbered 1, numbered 2] ∧
      ∃ n ≤ 1, 3 = e.sub.stats.delivered + e.sub.stats.dropped + e.sub.stats.queued + n := by
  have hreach : Reachable (withBuffer 1 dropOldest (by decide)) _ := ⟨0, overwriting, rfl⟩
  exact ⟨_, hreach, rfl, rfl, rfl, (frames_conserved hreach).2.1⟩

end Endpoint

end GoWarp.StreamBus
