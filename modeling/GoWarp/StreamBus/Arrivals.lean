import GoWarp.StreamBus.Queue
import GoWarp.Support.Transition

/-!
# The queue as a list in order of arrival

The reference machine keeps the queued frames in one list, in the order in
which they have arrived.  The four rings refine it: the ring of a class holds
the frames of the class, in order.  A ring is pushed without a check, and has
room because the frames of all rings together are fewer than the capacity.
-/

namespace GoWarp.StreamBus

open Support

inductive QueueOp where
  | push (frame : Frame)
  | pop
  | popOldest
  | clear
deriving DecidableEq

inductive QueueReply where
  | pushed (ok : Bool)
  | popped (frame : Option Frame)
  | cleared (dropped : ℕ)
deriving DecidableEq

namespace FrameQueue

def step : Machine FrameQueue QueueOp
  | q, .push frame => some ((q.push frame).getD q)
  | q, .pop => some (q.pop.elim q Prod.snd)
  | q, .popOldest => some (q.popOldest.elim q Prod.snd)
  | q, .clear => some q.clear.2

def reply (q : FrameQueue) : QueueOp → Option QueueReply
  | .push frame => some (.pushed (q.push frame).isSome)
  | .pop => some (.popped (q.pop.map Prod.fst))
  | .popOldest => some (.popped (q.popOldest.map Prod.fst))
  | .clear => some (.cleared q.clear.1)

end FrameQueue

/-! ## The reference machine -/

namespace Arrivals

open FrameQueue (classPart eldest)

/-- The earliest frame of the highest priority present. -/
def urgent (l : List Frame) : Option Frame :=
  l.find? fun frame => ∀ other ∈ l, other.priorityClass ≤ frame.priorityClass

/-- Of the earliest frames of the classes, one with the smallest sequence. -/
def oldest (l : List Frame) : Option Frame := (eldest fun p => classPart p l).map Prod.snd

def remove (l : List Frame) (frame : Option Frame) : List Frame := frame.elim l l.erase

def step (capacity : ℕ) : Machine (List Frame) QueueOp
  | l, .push frame => some (if l.length < capacity then l ++ [frame] else l)
  | l, .pop => some (remove l (urgent l))
  | l, .popOldest => some (remove l (oldest l))
  | _, .clear => some []

def reply (capacity : ℕ) (l : List Frame) : QueueOp → Option QueueReply
  | .push _ => some (.pushed (l.length < capacity))
  | .pop => some (.popped (urgent l))
  | .popOldest => some (.popped (oldest l))
  | .clear => some (.cleared l.length)

/-- The frame that an operation adds. -/
def accepted (capacity : ℕ) (l : List Frame) : QueueOp → Option Frame
  | .push frame => if l.length < capacity then some frame else none
  | _ => none

variable {l : List Frame} {frame : Frame}

theorem length_classPart (l : List Frame) :
    (classPart 0 l).length + (classPart 1 l).length + (classPart 2 l).length +
      (classPart 3 l).length = l.length := by
  induction l with
  | nil => rfl
  | cons frame rest ih =>
    have hp := FrameQueue.mem_classes frame.priorityClass
    simp only [List.mem_cons, List.not_mem_nil, or_false] at hp
    rcases hp with hp | hp | hp | hp
    all_goals
      simp [classPart, hp] at ih ⊢
      omega

theorem mem_classPart {p : Fin 4} :
    frame ∈ classPart p l ↔ frame ∈ l ∧ frame.priorityClass = p := by
  simp [classPart]

theorem eq_nil_of_classPart (h : ∀ p, classPart p l = []) : l = [] := by
  refine List.eq_nil_iff_forall_not_mem.mpr fun frame hmem => ?_
  have hpart := mem_classPart.mpr ⟨hmem, rfl⟩
  rw [h] at hpart
  cases hpart

theorem urgent_eq_some {rest : List Frame} {p : Fin 4} (hfirst : classPart p l = frame :: rest)
    (hhigher : ∀ p' > p, classPart p' l = []) : urgent l = some frame := by
  have hle : ∀ other ∈ l, other.priorityClass ≤ p := by
    intro other hmem
    by_contra hlt
    have hpart := mem_classPart.mpr ⟨hmem, rfl⟩
    rw [hhigher _ (not_le.mp hlt)] at hpart
    cases hpart
  obtain ⟨before, after, hl, hbefore, hclass, -⟩ := List.filter_eq_cons_iff.mp hfirst
  obtain rfl : frame.priorityClass = p := of_decide_eq_true hclass
  rw [urgent, List.find?_eq_some_iff_append]
  refine ⟨decide_eq_true hle, before, after, hl, fun other hother => ?_⟩
  have hmem : other ∈ l := hl ▸ List.mem_append_left _ hother
  have hframe : frame ∈ l := hl ▸ List.mem_append_right _ List.mem_cons_self
  have hne : other.priorityClass ≠ frame.priorityClass := fun heq =>
    hbefore other hother (decide_eq_true heq)
  simp only [Bool.not_eq_true', decide_eq_false_iff_not]
  exact fun hall => hne (le_antisymm (hle other hmem) (hall frame hframe))

theorem oldest_spec (hne : l ≠ [])
    (hsorted : ∀ p, (classPart p l).Pairwise fun f g => f.sequence ≤ g.sequence) :
    ∃ frame ∈ l, oldest l = some frame ∧ ∀ other ∈ l, frame.sequence ≤ other.sequence := by
  cases hselect : eldest fun p => classPart p l with
  | none =>
    exact absurd (eq_nil_of_classPart (FrameQueue.eldest_eq_none_iff.mp hselect)) hne
  | some first =>
    have hhead := FrameQueue.head?_of_eldest hselect
    refine ⟨first.2, (mem_classPart.mp (List.mem_of_mem_head? hhead)).1,
      by rw [oldest, hselect, Option.map_some], fun other hmem => ?_⟩
    have hpart := mem_classPart.mpr ⟨hmem, rfl⟩
    have hpairs := hsorted other.priorityClass
    obtain ⟨front, rest, hclass⟩ := List.exists_cons_of_ne_nil (List.ne_nil_of_mem hpart)
    have hle := FrameQueue.eldest_le hselect hclass
    rw [hclass] at hpart hpairs
    rcases List.mem_cons.mp hpart with rfl | hrest
    · exact hle
    · exact hle.trans ((List.pairwise_cons.mp hpairs).1 other hrest)

theorem remove_sublist (frame : Option Frame) : (remove l frame).Sublist l := by
  cases frame with
  | none => exact .refl l
  | some frame => exact List.erase_sublist

theorem sublist_of_run {capacity : ℕ} {ops : List QueueOp}
    (hrun : (step capacity).run [] ops = some l) :
    l.Sublist ((step capacity).emitted (accepted capacity) [] ops) := by
  refine (step capacity).run_history _ (I := fun l pushed => l.Sublist pushed) ?_ hrun (.refl [])
  intro l pushed op l' h hstep
  cases op with
  | push frame =>
    cases hstep
    rw [accepted]
    split
    · exact h.append (.refl [frame])
    · exact h.trans (List.sublist_append_left _ _)
  | pop | popOldest =>
    cases hstep
    exact ((remove_sublist _).trans h).trans (List.sublist_append_left _ _)
  | clear =>
    cases hstep
    exact List.nil_sublist _

end Arrivals

/-! ## Refinement -/

namespace FrameQueue

variable {q q' : FrameQueue} {l : List Frame} {frame : Frame} {capacity : ℕ}

/-- The rings hold the frames of the list. -/
structure Queues (capacity : ℕ) (q : FrameQueue) (l : List Frame) : Prop where
  contents : q.contents = fun p => classPart p l
  capacity : q.capacity = capacity

namespace Queues

variable (h : Queues capacity q l)
include h

theorem len : q.len = l.length := by
  have hlength : ∀ p, (q.queues p).len = (classPart p l).length := fun p => by
    rw [← RingQueue.length_contents]
    exact congrArg List.length (congrFun h.contents p)
  rw [q.len_eq, totalLen, ← Arrivals.length_classPart, hlength, hlength, hlength, hlength]

theorem push_eq_none_iff : q.push frame = none ↔ ¬l.length < capacity := by
  have hle := q.len_le
  rw [FrameQueue.push_eq_none_iff, ← h.len, ← h.capacity]
  omega

theorem of_push (hpush : q.push frame = some q') : Queues capacity q' (l ++ [frame]) := by
  obtain ⟨hcontents, -, hcapacity⟩ := push_eq_some hpush
  refine ⟨funext fun p => ?_, hcapacity.trans h.capacity⟩
  rw [hcontents, h.contents, classPart_append]

theorem of_popClass {p : Fin 4} (hpop : q.popClass p = some (frame, q')) :
    Queues capacity q' (l.erase frame) := by
  refine ⟨funext fun p' => ?_, (popClass_eq_some hpop).2.2.2.trans h.capacity⟩
  have hcontents : classPart p' l = _ :=
    (congrFun h.contents p').symm.trans (contents_popClass hpop p')
  rw [classPart, ← List.erase_filter, ← classPart, hcontents]
  by_cases hclass : frame.priorityClass = p'
  · simp [classPart, hclass]
  · have hnot : frame ∉ q'.contents p' := fun hmem =>
      hclass (q'.classes p' frame hmem)
    simp [classPart, hclass, List.erase_of_not_mem hnot]

theorem of_popped {popped : Option (Frame × FrameQueue)}
    (hclass : ∀ x, popped = some x → ∃ p, q.popClass p = some x) :
    Queues capacity (popped.elim q Prod.snd) (Arrivals.remove l (popped.map Prod.fst)) := by
  cases popped with
  | none => exact h
  | some x =>
    obtain ⟨p, hp⟩ := hclass x rfl
    exact h.of_popClass hp

theorem eq_nil (hempty : ∀ p, q.contents p = []) : l = [] :=
  Arrivals.eq_nil_of_classPart fun p => (congrFun h.contents p).symm.trans (hempty p)

end Queues

theorem popFirst_empty_before {ps : List (Fin 4)}
    (hps : ps.Pairwise (· > ·)) (h : q.popFirst ps = some (frame, q')) :
    ∃ p, q.popClass p = some (frame, q') ∧ ∀ p' ∈ ps, p < p' → q.contents p' = [] := by
  induction ps with
  | nil => cases h
  | cons p rest ih =>
    obtain ⟨hp, hrest⟩ := List.pairwise_cons.mp hps
    rw [popFirst] at h
    split at h
    next popped hpop =>
      refine ⟨p, hpop.trans h, List.forall_mem_cons.mpr ⟨fun hlt => ?_, ?_⟩⟩
      · exact absurd hlt (lt_irrefl p)
      · exact fun p' hp' hlt => absurd hlt (hp p' hp').asymm
    next hpop =>
      obtain ⟨p₁, hclass, hempty⟩ := ih hrest h
      refine ⟨p₁, hclass, List.forall_mem_cons.mpr ⟨fun _ => ?_, hempty⟩⟩
      exact popClass_eq_none_iff.mp hpop

namespace Queues

variable (h : Queues capacity q l)
include h

theorem pop : q.pop.map Prod.fst = Arrivals.urgent l := by
  cases hpop : q.pop with
  | none =>
    rw [h.eq_nil (pop_eq_none hpop)]
    rfl
  | some popped =>
    obtain ⟨p, hclass, hempty⟩ := popFirst_empty_before (by decide) hpop
    have hfirst := (popClass_eq_some hclass).1
    rw [h.contents] at hfirst hempty
    have hall : ∀ p' : Fin 4, p' ∈ [(3 : Fin 4), 2, 1, 0] := by decide
    exact (Arrivals.urgent_eq_some hfirst fun p' => hempty p' (hall p')).symm

theorem popOldest : q.popOldest.map Prod.fst = Arrivals.oldest l := by
  rw [Arrivals.oldest, ← h.contents]
  cases hpop : q.popOldest with
  | none =>
    rw [eldest_eq_none_iff.mpr (popOldest_eq_none hpop)]
    rfl
  | some popped =>
    obtain ⟨p, -, hselect⟩ := popOldest_eq_popClass hpop
    rw [hselect]
    rfl

theorem step {op : QueueOp} (hstep : FrameQueue.step q op = some q') :
    q.reply op = Arrivals.reply capacity l op ∧
      ∃ l', Arrivals.step capacity l op = some l' ∧ Queues capacity q' l' := by
  cases op with
  | push frame =>
    cases hstep
    dsimp only [reply, Arrivals.reply, Arrivals.step]
    cases hpush : q.push frame with
    | none =>
      have hfull := h.push_eq_none_iff.mp hpush
      simp [hfull, h]
    | some q₁ =>
      have hroom : l.length < capacity := by
        by_contra hfull
        rw [h.push_eq_none_iff.mpr hfull] at hpush
        cases hpush
      simp [hroom, h.of_push hpush]
  | pop =>
    cases hstep
    rw [reply, Arrivals.reply, Arrivals.step, ← h.pop]
    exact ⟨rfl, _, rfl, h.of_popped fun _ => pop_eq_some⟩
  | popOldest =>
    cases hstep
    rw [reply, Arrivals.reply, Arrivals.step, ← h.popOldest]
    refine ⟨rfl, _, rfl, h.of_popped fun _ hpop => ?_⟩
    exact (popOldest_eq_some hpop).imp fun _ => And.left
  | clear =>
    cases hstep
    rw [reply, Arrivals.reply, ← h.len]
    exact ⟨rfl, _, rfl, funext (clear_spec q).2.2, h.capacity⟩

end Queues

end FrameQueue

/-! ## Slots -/

/-- The slot `c` holds a queued frame. -/
def RingQueue.Holds (q : RingQueue) (c : ℕ) (frame : Frame) : Prop :=
  ∃ i < q.len, c = (q.head + i) % q.items.length ∧ Ring.slot q.items Frame.zero c = frame

namespace RingQueue

variable {q : RingQueue} {c : ℕ} {frame : Frame}

theorem Holds.push (h : q.Holds c frame) (other : Frame)
    (hroom : q.len < q.items.length) : (q.push other hroom).Holds c frame := by
  obtain ⟨i, hi, rfl, hslot⟩ := h
  refine ⟨i, Nat.lt_succ_of_lt hi, by rw [RingQueue.push, Ring.length_write], ?_⟩
  rw [RingQueue.push, Ring.slot_write_of_ne, hslot]
  rw [Nat.mod_mod]
  exact (Ring.mod_ne_of_lt (by omega) (by omega)).symm

theorem Holds.pop (h : q.Holds c frame) {first : Frame} {r : RingQueue}
    (hpop : q.pop = some (first, r)) :
    r.Holds c frame ∨ first = frame ∧ c = q.head := by
  obtain ⟨i, hi, rfl, hslot⟩ := h
  have hle := q.len_le
  have hhead := Nat.mod_eq_of_lt q.head_lt
  rw [RingQueue.pop, if_neg (by omega), Option.some.injEq, Prod.mk.injEq] at hpop
  obtain ⟨rfl, rfl⟩ := hpop
  rcases i with _ | i
  · exact .inr ⟨by rw [← hslot, Nat.add_zero, hhead], hhead⟩
  · refine .inl ⟨i, by simp only; omega, ?_, ?_⟩
    · simp [Nat.add_assoc, Nat.add_comm 1]
    · rw [Ring.slot_write_of_ne, hslot]
      rw [Nat.mod_mod]
      exact Ring.mod_ne_of_lt (by omega) (by omega)

end RingQueue

namespace FrameQueue

variable {q q' : FrameQueue} {p : Fin 4} {c : ℕ} {frame : Frame}

theorem holds_popped (h : (q.queues p).Holds c frame) {popped : Option (Frame × FrameQueue)}
    (hclass : ∀ x, popped = some x → ∃ p, q.popClass p = some x) :
    ((popped.elim q Prod.snd).queues p).Holds c frame ∨
      popped.map Prod.fst = some frame ∧ c = (q.queues p).head := by
  cases popped with
  | none => exact .inl h
  | some x =>
    obtain ⟨p', hpop⟩ := hclass x rfl
    obtain ⟨r, hring, hqueues, -⟩ := popClass_queues hpop
    rw [Option.elim_some, hqueues, Option.map_some, Option.some.injEq]
    by_cases hp : p = p'
    · subst hp
      rw [Function.update_self]
      exact h.pop hring
    · rw [Function.update_of_ne hp]
      exact .inl h

theorem holds_step (h : (q.queues p).Holds c frame) {op : QueueOp} (hstep : step q op = some q') :
    (q'.queues p).Holds c frame ∨ op = .clear ∨
      q.reply op = some (.popped (some frame)) ∧ c = (q.queues p).head := by
  cases op with
  | push other =>
    cases hstep
    left
    cases hpush : q.push other with
    | none => exact h
    | some q₁ =>
      obtain ⟨hroom, hqueues, -⟩ := push_queues hpush
      rw [Option.getD_some, hqueues]
      by_cases hp : p = other.priorityClass
      · subst hp
        rw [Function.update_self]
        exact h.push other hroom
      · rwa [Function.update_of_ne hp]
  | pop =>
    cases hstep
    rw [reply, Option.some.injEq, QueueReply.popped.injEq]
    exact (holds_popped h fun _ => pop_eq_some).imp_right Or.inr
  | popOldest =>
    cases hstep
    rw [reply, Option.some.injEq, QueueReply.popped.injEq]
    refine (holds_popped h fun _ hpop => ?_).imp_right Or.inr
    exact (popOldest_eq_some hpop).imp fun _ => And.left
  | clear => exact .inr (.inl rfl)

theorem run_step_eq_some (q : FrameQueue) (ops : List QueueOp) :
    ∃ q', step.run q ops = some q' := by
  induction ops generalizing q with
  | nil => exact ⟨q, rfl⟩
  | cons op rest ih =>
    obtain ⟨t, ht⟩ : ∃ t, step q op = some t := by
      cases op with
      | push frame | pop | popOldest | clear => exact ⟨_, rfl⟩
    exact (ih t).imp fun q' hq' => step.run_cons.mpr ⟨t, ht, hq'⟩

/-- A `frameQueue` answers every operation as the list of the queued frames in
the order of their arrival does.  `popOldest` takes a frame with the smallest
sequence of all if the frames of each class have been pushed in the order of
their sequences.  No slot of a queued frame is written. -/
theorem frameQueue_refines_arrivals {capacity : ℕ} (hpos : 0 < capacity) (ops : List QueueOp) :
    ∃ q l, step.run (new capacity hpos) ops = some q ∧
      (Arrivals.step capacity).run [] ops = some l ∧
      step.emitted reply (new capacity hpos) ops =
        (Arrivals.step capacity).emitted (Arrivals.reply capacity) [] ops ∧
      (∀ p, q.contents p = classPart p l) ∧
      q.len = totalLen q.queues ∧ q.len = l.length ∧ l.length ≤ capacity ∧
      ((∀ p, (classPart p ((Arrivals.step capacity).emitted
          (Arrivals.accepted capacity) [] ops)).Pairwise
          fun f g => f.sequence ≤ g.sequence) → l ≠ [] →
        ∃ frame ∈ l, Arrivals.oldest l = some frame ∧
          ∀ other ∈ l, frame.sequence ≤ other.sequence) ∧
      ∀ op q', step q op = some q' → ∀ p c frame, (q.queues p).Holds c frame →
          (q'.queues p).Holds c frame ∨ op = .clear ∨ q.reply op = some (.popped (some frame)) ∧
              c = (q.queues p).head := by
  obtain ⟨q, hq⟩ := run_step_eq_some (new capacity hpos) ops
  obtain ⟨hreplies, l, hl, h⟩ := step.run_simulation reply
    (Arrivals.step capacity) (Arrivals.reply capacity)
    (R := Queues capacity) (P := fun _ _ => True) (t := [])
    (fun _ _ _ _ h _ => h.step) hq (Machine.allSteps_true _ _ _)
    ⟨funext (contents_new capacity hpos), rfl⟩
  refine ⟨q, l, hq, hl, hreplies, congrFun h.contents, q.len_eq, h.len, ?_,
    fun hsorted hne => ?_, fun op q' hstep p c frame hholds => holds_step hholds hstep⟩
  · rw [← h.len, ← h.capacity]
    exact q.len_le
  · refine Arrivals.oldest_spec hne fun p => (hsorted p).sublist ?_
    exact (Arrivals.sublist_of_run hl).filter _

def rankedFrame (sequence : ℕ) (priority : UInt8) : Frame := { Frame.zero with sequence, priority }

/-- Two frames fill the queue; the undeclared priority 9 counts as
`PriorityNormal`. -/
def mixedOps : List QueueOp :=
  [.push (rankedFrame 1 0), .push (rankedFrame 2 9), .push (rankedFrame 3 3),
    .popOldest, .push (rankedFrame 4 3), .pop, .clear]

theorem frameQueue_refines_arrivals_mixedOps :
    0 < 2 ∧ ∃ q, step.run (new 2 Nat.two_pos) mixedOps = some q ∧
      step.emitted reply (new 2 Nat.two_pos) mixedOps = [.pushed true, .pushed true, .pushed false,
          .popped (some (rankedFrame 1 0)), .pushed true,
          .popped (some (rankedFrame 4 3)), .cleared 1] := by
  obtain ⟨q, _, hrun, _, hreplies, _⟩ := frameQueue_refines_arrivals Nat.two_pos mixedOps
  exact ⟨Nat.two_pos, q, hrun, hreplies.trans (by decide)⟩

end FrameQueue

end GoWarp.StreamBus
