import GoWarp.StreamBus.Queue

/-!
# Subscriptions

A subscription owns a bounded queue.  `Publish` and `Subscribe` put frames
into it, and a delivery goroutine takes them out, one at a time, to hand them
to the client.  The frame the goroutine has taken out and the client has not
received yet is `inFlight`.
-/

namespace GoWarp.StreamBus

/-- Options that `Subscribe` has accepted. -/
structure ValidOptions extends SubscribeOptions where
  topic_ne : topic ≠ []
  buffer_pos : 0 < buffer

theorem ValidOptions.toNat_buffer_pos (o : ValidOptions) : 0 < o.buffer.toNat := by
  have hpos := o.buffer_pos
  omega

/-- A topic is one of those the options ask for. -/
def SubscribeOptions.Matches (o : SubscribeOptions) (topic : Bytes) : Prop :=
  if o.isPrefix then o.topic <+: topic else o.topic = topic

/-! ## State -/

structure Subscription where
  id : ℕ
  options : ValidOptions
  queue : FrameQueue
  inFlight : Option Frame
  closed : Bool
  enqueued : ℕ
  delivered : ℕ
  dropped : ℕ

structure SubscriptionStats where
  enqueued : ℕ
  delivered : ℕ
  dropped : ℕ
  queued : ℕ
deriving DecidableEq

/-- Make room by dropping the earliest frame, and push. -/
def FrameQueue.pushOver (q : FrameQueue) (frame : Frame) : FrameQueue :=
  let q := (q.popOldest.map Prod.snd).getD q
  (q.push frame).getD q

/-- Drop everything, and push. -/
def FrameQueue.pushOnly (q : FrameQueue) (frame : Frame) : FrameQueue :=
  (q.clear.2.push frame).getD q.clear.2

namespace FrameQueue

variable {q : FrameQueue} {frame f : Frame} {p : Fin 4}

theorem mem_of_push {q' : FrameQueue} (hpush : q.push frame = some q')
    (h : f ∈ q'.contents p) : f ∈ q.contents p ∨ f = frame := by
  rw [(push_eq_some hpush).1] at h
  rcases List.mem_append.mp h with h | h
  · exact .inl h
  · exact .inr (List.mem_singleton.mp (List.mem_filter.mp h).1)

theorem mem_of_push_getD (h : f ∈ ((q.push frame).getD q).contents p) :
    f ∈ q.contents p ∨ f = frame := by
  rcases hpush : q.push frame with _ | q'
  · rw [hpush] at h
    exact .inl h
  · rw [hpush] at h
    exact mem_of_push hpush h

theorem mem_of_pushOver (h : f ∈ (q.pushOver frame).contents p) : f ∈ q.contents p ∨ f = frame := by
  rw [pushOver] at h
  rcases hpop : q.popOldest with _ | ⟨oldest, q'⟩
  · rw [hpop] at h
    exact mem_of_push_getD h
  · rw [hpop] at h
    refine (mem_of_push_getD h).imp_left fun hmem => ?_
    obtain ⟨p', hp', _⟩ := popOldest_eq_some hpop
    obtain ⟨hcontents, hother, _, _⟩ := popClass_eq_some hp'
    by_cases hp : p = p'
    · rw [hp, hcontents, ← hp]
      exact List.mem_cons_of_mem _ hmem
    · rw [← hother p hp]
      exact hmem

theorem mem_of_pushOnly (h : f ∈ (q.pushOnly frame).contents p) : f = frame := by
  rw [pushOnly] at h
  refine (mem_of_push_getD h).resolve_left ?_
  rw [(clear_spec q).2.2 p]
  exact List.not_mem_nil

end FrameQueue

namespace Subscription

/-- `newSubscription`. -/
def new (id : ℕ) (options : ValidOptions) : Subscription where
  id := id
  options := options
  queue := FrameQueue.new options.buffer.toNat options.toNat_buffer_pos
  inFlight := none
  closed := false
  enqueued := 0
  delivered := 0
  dropped := 0

def stats (s : Subscription) : SubscriptionStats :=
  ⟨s.enqueued, s.delivered, s.dropped, s.queue.len⟩

/-- `Subscription.preload` of one frame. -/
def preloadFrame (s : Subscription) (frame : Frame) : Subscription :=
  match s.queue.push frame with
  | some q => { s with queue := q, enqueued := s.enqueued + 1 }
  | none =>
    { s with
      queue := s.queue.pushOver frame
      enqueued := s.enqueued + 1
      dropped := s.dropped + 1 }

def preload (s : Subscription) (frames : List Frame) : Subscription := frames.foldl preloadFrame s

/-- How a turn of `Subscription.enqueue` ends: with `ErrSubscriptionDone`,
with the frame accepted or dropped, or waiting for room. -/
inductive EnqueueResult where
  | done
  | accepted (s : Subscription)
  | blocked

/-- One turn of the loop of `Subscription.enqueue`. -/
def enqueue (s : Subscription) (frame : Frame) : EnqueueResult :=
  if s.closed then
    .done
  else
    match s.queue.push frame with
    | some q => .accepted { s with queue := q, enqueued := s.enqueued + 1 }
    | none =>
      if s.options.overflow = dropNewest then
        .accepted { s with dropped := s.dropped + 1 }
      else if s.options.overflow = dropOldest then
        .accepted { s with
          queue := s.queue.pushOver frame
          dropped := s.dropped + 1
          enqueued := s.enqueued + 1 }
      else if s.options.overflow = latestOnly then
        .accepted { s with
          queue := s.queue.pushOnly frame
          dropped := s.dropped + s.queue.clear.1
          enqueued := s.enqueued + 1 }
      else
        .blocked

/-- The subscription after a frame has been offered to it once. -/
def offered (s : Subscription) (frame : Frame) : Subscription :=
  match s.enqueue frame with
  | .accepted s' => s'
  | _ => s

/-- The delivery goroutine takes the next frame out of the queue. -/
def pump (s : Subscription) : Option Subscription :=
  match s.inFlight, s.queue.pop with
  | none, some (frame, q) => some { s with queue := q, inFlight := some frame }
  | _, _ => none

def receive (s : Subscription) : Option (Frame × Subscription) :=
  s.inFlight.map fun frame => (frame, { s with inFlight := none, delivered := s.delivered + 1 })

/-! ## What a subscription holds -/

/-- The frames of a class that the client has yet to receive, in the order in
which it is going to. -/
def held (s : Subscription) (p : Fin 4) : List Frame :=
  FrameQueue.classPart p s.inFlight.toList ++ s.queue.contents p

theorem pump_eq_some {s s' : Subscription} (h : s.pump = some s') :
    ∃ frame q, s.inFlight = none ∧ s.queue.pop = some (frame, q) ∧
      s' = { s with queue := q, inFlight := some frame } := by
  rw [pump] at h
  split at h
  next frame q hflight hpop => exact ⟨frame, q, hflight, hpop, (Option.some.inj h).symm⟩
  next => cases h

theorem held_pump {s s' : Subscription} (h : s.pump = some s') (p : Fin 4) :
    s'.held p = s.held p := by
  obtain ⟨frame, q, hflight, hpop, rfl⟩ := pump_eq_some h
  obtain ⟨p', hp'⟩ := FrameQueue.pop_eq_some hpop
  rw [held, held, hflight, FrameQueue.contents_popClass hp' p]
  rfl

theorem held_of_push {s : Subscription} {frame : Frame} {q : FrameQueue}
    (h : s.queue.push frame = some q) (p : Fin 4) (n : ℕ) :
    ({ s with queue := q, enqueued := n } : Subscription).held p =
      s.held p ++ FrameQueue.classPart p [frame] := by
  rw [held, held, (FrameQueue.push_eq_some h).1 p, List.append_assoc]

/-- The client has yet to receive the frame. -/
def Has (s : Subscription) (frame : Frame) : Prop := ∃ p, frame ∈ s.held p

variable {s s' : Subscription} {frame f : Frame}

theorem has_of_queue (h : s'.Has f) (hflight : s'.inFlight = s.inFlight)
    (hqueue : ∀ p, f ∈ s'.queue.contents p →
      f ∈ s.queue.contents p ∨ f = frame) : s.Has f ∨ f = frame := by
  obtain ⟨p, hp⟩ := h
  rw [held, hflight] at hp
  rcases List.mem_append.mp hp with hp | hp
  · exact .inl ⟨p, List.mem_append_left _ hp⟩
  · exact (hqueue p hp).imp_left fun hmem => ⟨p, List.mem_append_right _ hmem⟩

theorem has_of_preloadFrame (h : (s.preloadFrame frame).Has f) : s.Has f ∨ f = frame := by
  rw [preloadFrame] at h
  split at h
  next q hpush => exact has_of_queue h rfl fun _ => FrameQueue.mem_of_push hpush
  · exact has_of_queue h rfl fun _ => FrameQueue.mem_of_pushOver

theorem has_of_preload {frames : List Frame} (h : (s.preload frames).Has f) :
    s.Has f ∨ f ∈ frames := by
  induction frames generalizing s with
  | nil => exact .inl h
  | cons first rest ih =>
    rcases ih h with h | h
    · rcases has_of_preloadFrame h with h | h
      · exact .inl h
      · exact .inr (List.mem_cons.mpr (.inl h))
    · exact .inr (List.mem_cons_of_mem _ h)

theorem has_of_enqueue (h : s.enqueue frame = .accepted s')
    (hf : s'.Has f) : s.Has f ∨ f = frame := by
  rw [enqueue] at h
  split at h
  · cases h
  · split at h
    next q hpush =>
      cases h
      exact has_of_queue hf rfl fun _ => FrameQueue.mem_of_push hpush
    next =>
      split_ifs at h
      · cases h
        exact .inl hf
      · cases h
        exact has_of_queue hf rfl fun _ => FrameQueue.mem_of_pushOver
      · cases h
        exact has_of_queue hf rfl fun _ hp => Or.inr (FrameQueue.mem_of_pushOnly hp)

theorem has_of_offered (h : (s.offered frame).Has f) : s.Has f ∨ f = frame := by
  rw [offered] at h
  split at h
  next hres => exact has_of_enqueue hres h
  next => exact .inl h

theorem has_of_pump (h : s.pump = some s') (hf : s'.Has f) : s.Has f := by
  obtain ⟨p, hp⟩ := hf
  rw [held_pump h] at hp
  exact ⟨p, hp⟩

theorem has_of_receive (h : s.receive = some (frame, s')) :
    s.Has frame ∧ ∀ f, s'.Has f → s.Has f := by
  rw [receive, Option.map_eq_some_iff] at h
  obtain ⟨frame', hflight, heq⟩ := h
  cases heq
  constructor
  · refine ⟨frame.priorityClass, List.mem_append_left _ ?_⟩
    rw [hflight]
    exact List.mem_filter.mpr ⟨List.mem_singleton_self _, by simp⟩
  · rintro f ⟨p, hp⟩
    rcases List.mem_append.mp hp with hp | hp
    · exact absurd hp List.not_mem_nil
    · exact ⟨p, List.mem_append_right _ hp⟩

end Subscription

end GoWarp.StreamBus
