import GoWarp.StreamBus.Subscription
import Mathlib.Data.List.Perm.Subperm

/-!
# What goes in and out of a queue

The frames a queue holds, class by class, before and after each operation of a
subscription.  `Accounted` says where the frames have gone when a frame is
offered: every frame that was held and the new one are held afterwards or have
been dropped, the counter of dropped frames has been raised by as many, and
the frames of a class keep the order in which they have entered.
-/

namespace GoWarp.StreamBus

namespace FrameQueue

variable {q q' : FrameQueue} {frame : Frame}

theorem classPart_contents (q : FrameQueue) (p : Fin 4) :
    classPart p (q.contents p) = q.contents p := by
  apply List.filter_eq_self.mpr
  intro frame hframe
  exact decide_eq_true (q.classes p frame hframe)

@[simp] theorem length_frames (q : FrameQueue) : q.frames.length = q.len := by
  rw [q.len_eq]
  simp only [frames, contents, List.length_append, RingQueue.length_contents, totalLen]
  omega

theorem count_classPart (f : Frame) (p : Fin 4) (xs : List Frame) : (classPart p xs).count f =
      if f.priorityClass = p then xs.count f else 0 := by
  split
  next h => exact List.count_filter (decide_eq_true h)
  next h =>
    apply List.count_eq_zero.mpr
    intro hmem
    exact h (of_decide_eq_true (List.mem_filter.mp hmem).2)

theorem count_contents (q : FrameQueue) (f : Frame) (p : Fin 4) : (q.contents p).count f =
      if f.priorityClass = p then q.frames.count f else 0 := by
  have hpart : ∀ p, (q.contents p).count f =
      if f.priorityClass = p then (q.contents p).count f else 0 := by
    intro p
    rw [← count_classPart, classPart_contents]
  rw [hpart p]
  split
  next h =>
    simp only [frames, List.count_append]
    rw [hpart 0, hpart 1, hpart 2, hpart 3, h]
    have hp : p = 0 ∨ p = 1 ∨ p = 2 ∨ p = 3 := by omega
    rcases hp with rfl | rfl | rfl | rfl
    all_goals simp
  next => rfl

theorem frames_perm {ins outs : List Frame} (h : ∀ p, (q.contents p ++ classPart p ins).Perm
      (q'.contents p ++ classPart p outs)) :
    (q.frames ++ ins).Perm (q'.frames ++ outs) := by
  apply List.perm_iff_count.mpr
  intro f
  have hcount := (h f.priorityClass).count_eq f
  simpa only [List.count_append, count_contents, count_classPart, if_true] using hcount

theorem frames_push (h : q.push frame = some q') :
    (q.frames ++ [frame]).Perm (q'.frames ++ []) := by
  apply frames_perm
  intro p
  rw [(push_eq_some h).1 p, classPart_nil, List.append_nil]

theorem frames_popClass {p : Fin 4} (h : q.popClass p = some (frame, q')) :
    (q.frames ++ []).Perm (q'.frames ++ [frame]) := by
  apply frames_perm
  intro p'
  rw [contents_popClass h p', classPart_nil, List.append_nil]
  exact List.perm_append_comm

/-- The frame that `popOldest` takes out. -/
def oldest (q : FrameQueue) : List Frame := (q.popOldest.map Prod.fst).toList

theorem len_eq_zero (h : ∀ p, q.contents p = []) : q.len = 0 := by
  rw [← length_frames, frames, h, h, h, h]
  rfl

theorem exists_popOldest (h : 0 < q.len) : ∃ first rest p, q.popOldest = some (first, rest) ∧
      q.popClass p = some (first, rest) := by
  rcases hpop : q.popOldest with _ | ⟨first, rest⟩
  · have hlen := len_eq_zero (popOldest_eq_none hpop)
    omega
  · obtain ⟨p, hp, -⟩ := popOldest_eq_some hpop
    exact ⟨first, rest, p, rfl, hp⟩

theorem pushOver_spec (frame : Frame) (hpos : 0 < q.capacity) (hfull : q.len = q.capacity) :
    (q.frames ++ [frame]).Perm ((q.pushOver frame).frames ++ q.oldest) ∧
      (∀ p, ((q.pushOver frame).contents p).Sublist (q.contents p ++ classPart p [frame])) ∧
      q.oldest.length = 1 ∧ (q.pushOver frame).capacity = q.capacity := by
  obtain ⟨first, rest, p, hpop, hclass⟩ := exists_popOldest (q := q) (by omega)
  obtain ⟨-, -, hlen, hcap⟩ := popClass_eq_some hclass
  obtain ⟨after, hafter⟩ : ∃ after, rest.push frame = some after := by
    apply Option.ne_none_iff_exists'.mp
    rw [Ne, push_eq_none_iff]
    omega
  have hresult : q.pushOver frame = after := by simp [pushOver, hpop, hafter]
  have holdest : q.oldest = [first] := by simp [oldest, hpop]
  rw [hresult, holdest]
  refine ⟨?_, ?_, rfl, (push_eq_some hafter).2.2.trans hcap⟩
  · have hpopped := (frames_popClass hclass).append_right [frame]
    have hpushed := (frames_push hafter).append_left [first]
    simp only [List.append_nil] at hpopped hpushed
    calc q.frames ++ [frame]
        |>.Perm ((rest.frames ++ [first]) ++ [frame]) := hpopped
      _ |>.Perm ([first] ++ (rest.frames ++ [frame])) := by
          rw [← List.append_assoc]
          exact List.perm_append_comm.append_right [frame]
      _ |>.Perm ([first] ++ after.frames) := hpushed
      _ |>.Perm (after.frames ++ [first]) := List.perm_append_comm
  · intro p'
    rw [(push_eq_some hafter).1 p', contents_popClass hclass p']
    apply List.Sublist.append_right
    exact List.sublist_append_right _ _

theorem pushOnly_spec (frame : Frame) (hpos : 0 < q.capacity) :
    (q.frames ++ [frame]).Perm ((q.pushOnly frame).frames ++ q.frames) ∧
      (∀ p, ((q.pushOnly frame).contents p).Sublist (q.contents p ++ classPart p [frame])) ∧
      (q.pushOnly frame).capacity = q.capacity := by
  obtain ⟨-, hcap, hempty⟩ := clear_spec q
  obtain ⟨after, hafter⟩ : ∃ after, q.clear.2.push frame = some after := by
    apply Option.ne_none_iff_exists'.mp
    rw [Ne, push_eq_none_iff, hcap]
    change ¬0 = q.capacity
    omega
  have hresult : q.pushOnly frame = after := by simp [pushOnly, hafter]
  have hcontents : ∀ p, after.contents p = classPart p [frame] := by
    intro p
    rw [(push_eq_some hafter).1 p, hempty p, List.nil_append]
  rw [hresult]
  refine ⟨?_, ?_, (push_eq_some hafter).2.2.trans hcap⟩
  · have hpushed := frames_push hafter
    have hnone : q.clear.2.frames = [] := by simp [frames, hempty]
    rw [hnone, List.nil_append, List.append_nil] at hpushed
    exact (hpushed.append_left q.frames).trans List.perm_append_comm
  · intro p
    rw [hcontents p]
    exact List.sublist_append_right _ _

end FrameQueue

/-- The policy is `Block`, or a byte that counts as it. -/
def SubscribeOptions.Blocks (o : SubscribeOptions) : Prop :=
  o.overflow ≠ dropNewest ∧ o.overflow ≠ dropOldest ∧ o.overflow ≠ latestOnly

namespace Subscription

variable {s s' : Subscription} {frame : Frame}

/-- The frames that enter the queue and the ones that are dropped when a frame
is offered and `Subscription.enqueue` does not wait. -/
def enters (s : Subscription) (frame : Frame) : List Frame :=
  if s.queue.len = s.queue.capacity ∧ s.options.overflow = dropNewest then []
  else [frame]

@[inherit_doc enters]
def drops (s : Subscription) (frame : Frame) : List Frame :=
  if s.queue.len ≠ s.queue.capacity then []
  else if s.options.overflow = dropNewest then [frame]
  else if s.options.overflow = dropOldest then s.queue.oldest
  else if s.options.overflow = latestOnly then s.queue.frames
  else []

/-- The frame that `Subscription.preload` drops to make room for another one. -/
def preloadDrops (s : Subscription) : List Frame :=
  if s.queue.len ≠ s.queue.capacity then [] else s.queue.oldest

/-- All frames that `Subscription.preload` drops. -/
def preloadDropsAll : Subscription → List Frame → List Frame
  | _, [] => []
  | s, frame :: rest => s.preloadDrops ++ preloadDropsAll (s.preloadFrame frame) rest

/-- Frames have been offered: every frame is held or has been dropped. -/
structure Accounted (s s' : Subscription) (offered enters drops : List Frame) : Prop where
  perm : (s.queue.frames ++ offered).Perm (s'.queue.frames ++ drops)
  sublist : ∀ p, (s'.queue.contents p).Sublist (s.queue.contents p ++ FrameQueue.classPart p enters)
  capacity : s'.queue.capacity = s.queue.capacity
  dropped : s'.dropped = s.dropped + drops.length
  delivered : s'.delivered = s.delivered
  inFlight : s'.inFlight = s.inFlight
  options : s'.options = s.options
  closed : s'.closed = s.closed

theorem Accounted.refl (s : Subscription) : s.Accounted s [] [] [] where
  perm := .refl _
  sublist p := by simp
  capacity := rfl
  dropped := rfl
  delivered := rfl
  inFlight := rfl
  options := rfl
  closed := rfl

theorem Accounted.trans {t : Subscription}
    {offered enters drops offered' enters' drops' : List Frame}
    (h : s.Accounted t offered enters drops) (h' : t.Accounted s' offered' enters' drops') :
    s.Accounted s' (offered ++ offered') (enters ++ enters') (drops ++ drops') where
  perm := by
    calc s.queue.frames ++ (offered ++ offered')
        |>.Perm ((t.queue.frames ++ drops) ++ offered') := by
          rw [← List.append_assoc]
          exact h.perm.append_right offered'
      _ |>.Perm (drops ++ (t.queue.frames ++ offered')) := by
          rw [← List.append_assoc]
          exact List.perm_append_comm.append_right offered'
      _ |>.Perm (drops ++ (s'.queue.frames ++ drops')) := h'.perm.append_left drops
      _ |>.Perm (s'.queue.frames ++ (drops ++ drops')) := by
          rw [← List.append_assoc, ← List.append_assoc]
          exact List.perm_append_comm.append_right drops'
  sublist p := by
    rw [FrameQueue.classPart_append, ← List.append_assoc]
    exact (h'.sublist p).trans ((h.sublist p).append_right _)
  capacity := h'.capacity.trans h.capacity
  dropped := by rw [h'.dropped, h.dropped, List.length_append, Nat.add_assoc]
  delivered := h'.delivered.trans h.delivered
  inFlight := h'.inFlight.trans h.inFlight
  options := h'.options.trans h.options
  closed := h'.closed.trans h.closed

theorem accounted_push {q : FrameQueue} (h : s.queue.push frame = some q)
    (n : ℕ) : s.Accounted { s with queue := q, enqueued := n } [frame] [frame] [] where
  perm := FrameQueue.frames_push h
  sublist p := by rw [(FrameQueue.push_eq_some h).1 p]
  capacity := (FrameQueue.push_eq_some h).2.2
  dropped := rfl
  delivered := rfl
  inFlight := rfl
  options := rfl
  closed := rfl

theorem accounted_pushOver (hpos : 0 < s.queue.capacity)
    (hfull : s.queue.len = s.queue.capacity) (n : ℕ) :
    s.Accounted { s with
      queue := s.queue.pushOver frame
      enqueued := n
      dropped := s.dropped + 1 } [frame] [frame] s.queue.oldest := by
  obtain ⟨hperm, hsublist, hone, hcap⟩ := FrameQueue.pushOver_spec frame hpos hfull
  exact
    { perm := hperm
      sublist := hsublist
      capacity := hcap
      dropped := by rw [hone]
      delivered := rfl
      inFlight := rfl
      options := rfl
      closed := rfl }

theorem push_of_room (frame : Frame) (h : s.queue.len ≠ s.queue.capacity) :
    ∃ q, s.queue.push frame = some q := by
  apply Option.ne_none_iff_exists'.mp
  rwa [Ne, FrameQueue.push_eq_none_iff]

theorem accounted_preloadFrame (frame : Frame) (hpos : 0 < s.queue.capacity) :
    s.Accounted (s.preloadFrame frame) [frame] [frame] s.preloadDrops := by
  by_cases hfull : s.queue.len = s.queue.capacity
  · have hpush : s.queue.push frame = none :=
      FrameQueue.push_eq_none_iff.mpr hfull
    simp only [preloadFrame, preloadDrops, hpush, hfull, ne_eq, not_true,
      if_false]
    exact accounted_pushOver hpos hfull _
  · obtain ⟨q, hpush⟩ := push_of_room frame hfull
    simp only [preloadFrame, preloadDrops, hpush, hfull, ne_eq, not_false_iff,
      if_true]
    exact accounted_push hpush _

theorem accounted_preload (hpos : 0 < s.queue.capacity) (frames : List Frame) :
    s.Accounted (s.preload frames) frames frames (s.preloadDropsAll frames) := by
  induction frames generalizing s with
  | nil => exact .refl s
  | cons frame rest ih =>
    have hfirst := accounted_preloadFrame frame hpos
    apply hfirst.trans
    apply ih
    rw [hfirst.capacity]
    exact hpos

theorem accounted_enqueue (hpos : 0 < s.queue.capacity) (h : s.enqueue frame = .accepted s') :
    s.Accounted s' [frame] (s.enters frame) (s.drops frame) := by
  rw [enqueue] at h
  split at h
  next => cases h
  next =>
    by_cases hfull : s.queue.len = s.queue.capacity
    · have hpush : s.queue.push frame = none :=
        FrameQueue.push_eq_none_iff.mpr hfull
      rw [hpush] at h
      simp only [enters, drops, hfull, ne_eq, not_true, if_false, true_and]
      dsimp only at h
      split_ifs at h with hnewest holdest hlatest
      · cases h
        rw [if_pos hnewest, if_pos hnewest]
        exact ⟨.refl _, fun p => by simp, rfl, rfl, rfl, rfl, rfl, rfl⟩
      · cases h
        rw [if_neg hnewest, if_neg hnewest, if_pos holdest]
        exact accounted_pushOver hpos hfull _
      · cases h
        rw [if_neg hnewest, if_neg hnewest, if_neg holdest, if_pos hlatest]
        obtain ⟨hperm, hsublist, hcap⟩ := FrameQueue.pushOnly_spec frame hpos
        refine ⟨hperm, hsublist, hcap, ?_, rfl, rfl, rfl, rfl⟩
        rw [FrameQueue.length_frames]
        rfl
    · obtain ⟨q, hpush⟩ := push_of_room frame hfull
      rw [hpush] at h
      cases h
      simp only [enters, drops, hfull, ne_eq, not_false_iff, if_true, false_and, if_false]
      exact accounted_push hpush _

theorem queue_of_enters_nil (h : s.enqueue frame = .accepted s')
    (hnone : s.enters frame = []) : s'.queue = s.queue := by
  have hnewest : s.queue.len = s.queue.capacity ∧ s.options.overflow = dropNewest := by
    by_contra hne
    rw [enters, if_neg hne] at hnone
    cases hnone
  have hpush : s.queue.push frame = none := FrameQueue.push_eq_none_iff.mpr hnewest.1
  rw [enqueue] at h
  split at h
  next => cases h
  next =>
    rw [hpush] at h
    dsimp only at h
    rw [if_pos hnewest.2] at h
    cases h
    rfl

theorem closed_of_enqueue_done (h : s.enqueue frame = .done) : s.closed = true := by
  rw [enqueue] at h
  split at h
  next hclosed => exact hclosed
  next =>
    split at h
    next => cases h
    next => split_ifs at h

theorem enqueue_of_blocks (hblocks : s.options.Blocks) :
    (s.enqueue frame = .blocked → s.queue.len = s.queue.capacity) ∧
      ∀ s', s.enqueue frame = .accepted s' → s'.queue.len = s.queue.len + 1 ∧
        s'.queue.capacity = s.queue.capacity := by
  obtain ⟨hnewest, holdest, hlatest⟩ := hblocks
  rw [enqueue, if_neg hnewest, if_neg holdest, if_neg hlatest]
  split
  next => simp
  next =>
    split
    next q hpush =>
      refine ⟨by simp, ?_⟩
      intro s' h
      cases h
      exact (FrameQueue.push_eq_some hpush).2
    next hpush => exact ⟨fun _ => FrameQueue.push_eq_none_iff.mp hpush, by simp⟩

theorem len_of_pump_eq_none (hflight : s.inFlight = none)
    (h : s.pump = none) : s.queue.len = 0 := by
  rw [pump, hflight] at h
  rcases hpop : s.queue.pop with _ | ⟨frame, q⟩
  · exact FrameQueue.len_eq_zero (FrameQueue.pop_eq_none hpop)
  · rw [hpop] at h
    cases h

theorem enters_or_drops (s : Subscription) (frame : Frame) : s.enters frame = [frame] ∨
      s.enters frame = [] ∧ s.drops frame = [frame] := by
  by_cases h : s.queue.len = s.queue.capacity ∧ s.options.overflow = dropNewest
  · right
    simp [enters, drops, h.1, h.2]
  · left
    exact if_neg h

theorem drops_of_dropNewest (h : s.options.overflow = dropNewest) :
    ∀ f ∈ s.drops frame, f = frame := by
  intro f hf
  rw [drops, if_pos h] at hf
  split at hf
  next => cases hf
  next => exact List.mem_singleton.mp hf

theorem drops_of_blocks (h : s.options.Blocks) : s.drops frame = [] := by
  obtain ⟨hnewest, holdest, hlatest⟩ := h
  rw [drops, if_neg hnewest, if_neg holdest, if_neg hlatest]
  exact ite_self _

end Subscription

end GoWarp.StreamBus
