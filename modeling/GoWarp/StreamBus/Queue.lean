import GoWarp.StreamBus.Types
import GoWarp.Support.Ring
import Mathlib.Data.List.MinMax
import Mathlib.Order.Fin.Basic

/-!
# The queue of a subscription

Four circular buffers, one for each priority class, share one capacity.  The
structures carry the bounds of their indices, so that a queue that has lost
count of its frames cannot be built.  `RingQueue.contents` and
`FrameQueue.contents` are the frames in the order in which they are queued.
-/

namespace GoWarp.StreamBus

open Support
open Function (update update_of_ne update_self)

/-! ## One circular buffer -/

structure RingQueue where
  items : List Frame
  head : ℕ
  len : ℕ
  head_lt : head < items.length
  len_le : len ≤ items.length

namespace RingQueue

/-- `newRingQueue`. -/
def new (capacity : ℕ) (hpos : 0 < capacity) : RingQueue where
  items := List.replicate capacity Frame.zero
  head := 0
  len := 0
  head_lt := Ring.length_replicate_pos Frame.zero hpos
  len_le := Nat.zero_le _

/-- `ringQueue.push`, into a buffer with room. -/
def push (q : RingQueue) (frame : Frame) (hroom : q.len < q.items.length) : RingQueue where
  items := Ring.write q.items (q.head + q.len) frame
  head := q.head
  len := q.len + 1
  head_lt := by simpa using q.head_lt
  len_le := by
    rw [Ring.length_write]
    exact hroom

def peek (q : RingQueue) : Option Frame :=
  if q.len = 0 then none else some (Ring.slot q.items Frame.zero q.head)

def pop (q : RingQueue) : Option (Frame × RingQueue) :=
  if q.len = 0 then
    none
  else
    some (Ring.slot q.items Frame.zero q.head,
      { items := Ring.write q.items q.head Frame.zero
        head := (q.head + 1) % q.items.length
        len := q.len - 1
        head_lt := by
          have hpos := Nat.lt_of_le_of_lt (Nat.zero_le _) q.head_lt
          simpa using Nat.mod_lt _ hpos
        len_le := by
          have hle := q.len_le
          simp only [Ring.length_write]
          omega })

/-- Pop `n` times. -/
def drain (q : RingQueue) : ℕ → RingQueue
  | 0 => q
  | n + 1 =>
    match q.pop with
    | none => q
    | some (_, r) => drain r n

/-- The frames in the order in which they were pushed. -/
def contents (q : RingQueue) : List Frame := Ring.window q.items Frame.zero q.head q.len

variable {q : RingQueue}

@[simp] theorem length_contents : q.contents.length = q.len := by simp [contents]

@[simp] theorem contents_new (capacity : ℕ) (hpos : 0 < capacity) :
    (new capacity hpos).contents = [] := rfl

@[simp] theorem contents_push (frame : Frame) (hroom : q.len < q.items.length) :
    (q.push frame hroom).contents = q.contents ++ [frame] :=
  Ring.window_write_end Frame.zero hroom frame

theorem peek_eq_head? : q.peek = q.contents.head? := by
  rw [peek, contents]
  rcases q.len with _ | n
  · rfl
  · rw [Ring.window_cons]
    rfl

theorem pop_eq_none_iff : q.pop = none ↔ q.contents = [] := by
  rw [← List.length_eq_zero_iff, length_contents, pop]
  by_cases hlen : q.len = 0
  · simp [hlen]
  · simp [hlen]

theorem pop_eq_some {frame : Frame} {r : RingQueue} (h : q.pop = some (frame, r)) :
    q.contents = frame :: r.contents ∧ r.len + 1 = q.len ∧ r.items.length = q.items.length := by
  rw [pop] at h
  split at h
  · cases h
  next hlen =>
    rw [Option.some.injEq, Prod.mk.injEq] at h
    obtain ⟨hframe, hr⟩ := h
    obtain ⟨n, hn⟩ := Nat.exists_eq_succ_of_ne_zero hlen
    have hle := q.len_le
    have hrest : r.contents = Ring.window q.items Frame.zero (q.head + 1) n := by
      have hclear : Ring.write q.items q.head Frame.zero =
          Ring.write q.items (q.head + q.items.length) Frame.zero :=
        Ring.write_congr (Nat.add_mod_right _ _).symm _
      rw [← hr, contents]
      change Ring.window (Ring.write q.items q.head Frame.zero) Frame.zero
        ((q.head + 1) % q.items.length) (q.len - 1) = _
      rw [Ring.window_congr Frame.zero (j := q.head + 1) (by simp), hclear,
        Ring.window_write_of_le Frame.zero (by omega) (by omega), hn]
      rfl
    refine ⟨?_, ?_, ?_⟩
    · rw [contents, hn, Nat.succ_eq_add_one, Ring.window_cons, hrest, hframe]
    · rw [← hr]
      exact Nat.succ_pred_eq_of_ne_zero hlen
    · rw [← hr]
      exact Ring.length_write _ _ _

theorem length_items_drain (q : RingQueue) (n : ℕ) : (q.drain n).items.length = q.items.length := by
  induction n generalizing q with
  | zero => rfl
  | succ n ih =>
    rw [drain]
    rcases hpop : q.pop with _ | ⟨frame, r⟩
    · rfl
    · exact (ih r).trans (pop_eq_some hpop).2.2

theorem len_drain (q : RingQueue) : (q.drain q.len).len = 0 := by
  induction hn : q.len generalizing q with
  | zero => exact hn
  | succ n ih =>
    rw [drain]
    rcases hpop : q.pop with _ | ⟨frame, r⟩
    · have hempty := pop_eq_none_iff.mp hpop
      rw [← length_contents, hempty]
      rfl
    · have hr := (pop_eq_some hpop).2.1
      exact ih r (by omega)

end RingQueue

/-! ## Four priority classes -/

/-- The index of the ring a frame belongs to; an undeclared priority counts as
`PriorityNormal`. -/
def Frame.priorityClass (frame : Frame) : Fin 4 :=
  match frame.priority with
  | 0 => 0
  | 1 => 1
  | 2 => 2
  | 3 => 3
  | _ => 1

/-- The number of frames in four rings. -/
def totalLen (queues : Fin 4 → RingQueue) : ℕ :=
  (queues 0).len + (queues 1).len + (queues 2).len + (queues 3).len

theorem totalLen_update (queues : Fin 4 → RingQueue) (p : Fin 4) (r : RingQueue) :
    totalLen (update queues p r) + (queues p).len = totalLen queues + r.len := by
  have hp : p = 0 ∨ p = 1 ∨ p = 2 ∨ p = 3 := by omega
  rcases hp with rfl | rfl | rfl | rfl
  all_goals
    simp [totalLen, update]
    omega

theorem len_le_totalLen (queues : Fin 4 → RingQueue) (p : Fin 4) :
    (queues p).len ≤ totalLen queues := by
  have hp : p = 0 ∨ p = 1 ∨ p = 2 ∨ p = 3 := by omega
  rcases hp with rfl | rfl | rfl | rfl
  all_goals
    simp only [totalLen]
    omega

/-- `frameQueue`.  Every ring holds frames of its own class. -/
structure FrameQueue where
  queues : Fin 4 → RingQueue
  capacity : ℕ
  len : ℕ
  classes : ∀ p, ∀ frame ∈ (queues p).contents, frame.priorityClass = p
  length_items : ∀ p, (queues p).items.length = capacity
  len_eq : len = totalLen queues
  len_le : len ≤ capacity

namespace FrameQueue

/-- `newFrameQueue`. -/
def new (capacity : ℕ) (hpos : 0 < capacity) : FrameQueue where
  queues := fun _ => RingQueue.new capacity hpos
  capacity := capacity
  len := 0
  classes := by simp
  length_items := fun _ => List.length_replicate
  len_eq := rfl
  len_le := Nat.zero_le _

def replace (q : FrameQueue) (p : Fin 4) (r : RingQueue) (len : ℕ)
    (hclass : ∀ frame ∈ r.contents, frame.priorityClass = p)
    (hitems : r.items.length = q.capacity)
    (hlen : len + (q.queues p).len = q.len + r.len) (hle : len ≤ q.capacity) :
    FrameQueue where
  queues := update q.queues p r
  capacity := q.capacity
  len := len
  classes := by
    intro p' frame hframe
    by_cases hp : p' = p
    · rw [hp, update_self] at hframe
      rw [hp, hclass frame hframe]
    · rw [update_of_ne hp] at hframe
      exact q.classes p' frame hframe
  length_items := by
    intro p'
    by_cases hp : p' = p
    · rw [hp, update_self, hitems]
    · rw [update_of_ne hp, q.length_items]
  len_eq := by
    have hsum := totalLen_update q.queues p r
    have hq := q.len_eq
    omega
  len_le := hle

theorem room_of_ne (q : FrameQueue) (hne : q.len ≠ q.capacity) (p : Fin 4) :
    (q.queues p).len < (q.queues p).items.length := by
  have hle := q.len_le
  have htotal := len_le_totalLen q.queues p
  have hlen := q.len_eq
  rw [q.length_items]
  omega

/-- `frameQueue.push`, `none` when the queue is full. -/
def push (q : FrameQueue) (frame : Frame) : Option FrameQueue :=
  if hfull : q.len = q.capacity then
    none
  else
    let p := frame.priorityClass
    some (q.replace p ((q.queues p).push frame (q.room_of_ne hfull p)) (q.len + 1) (by
        intro other hmem
        rw [RingQueue.contents_push, List.mem_append, List.mem_singleton] at hmem
        rcases hmem with hmem | rfl
        · exact q.classes p other hmem
        · rfl)
      (by
        rw [RingQueue.push, Ring.length_write, q.length_items])
      (by
        simp only [RingQueue.push]
        omega)
      (by
        have hle := q.len_le
        omega))

def popClass (q : FrameQueue) (p : Fin 4) : Option (Frame × FrameQueue) :=
  match h : (q.queues p).pop with
  | none => none
  | some (frame, r) =>
    some (frame, q.replace p r (q.len - 1) (by
        intro other hmem
        apply q.classes p other
        rw [(RingQueue.pop_eq_some h).1]
        exact List.mem_cons_of_mem _ hmem)
      ((RingQueue.pop_eq_some h).2.2.trans (q.length_items p))
      (by
        have hr := (RingQueue.pop_eq_some h).2.1
        have htotal := len_le_totalLen q.queues p
        have hlen := q.len_eq
        omega)
      (by
        have hle := q.len_le
        omega))

def popFirst (q : FrameQueue) : List (Fin 4) → Option (Frame × FrameQueue)
  | [] => none
  | p :: rest =>
    match q.popClass p with
    | some popped => some popped
    | none => popFirst q rest

/-- `frameQueue.pop`: the most urgent class first. -/
def pop (q : FrameQueue) : Option (Frame × FrameQueue) := q.popFirst [3, 2, 1, 0]

/-- The class with the earliest first frame, when `best` is the choice so far
and the class `p` is looked at next. -/
def older (q : FrameQueue) (best : Option (Fin 4 × Frame)) (p : Fin 4) : Option (Fin 4 × Frame) :=
  match (q.queues p).peek with
  | none => best
  | some frame =>
    match best with
    | none => some (p, frame)
    | some (p', oldest) =>
      if frame.sequence < oldest.sequence then some (p, frame)
      else some (p', oldest)

/-- `frameQueue.popOldest`: the earliest sequence, whatever its class. -/
def popOldest (q : FrameQueue) : Option (Frame × FrameQueue) :=
  match [0, 1, 2, 3].foldl q.older none with
  | none => none
  | some (p, _) => q.popClass p

/-- `frameQueue.clear`: the number of frames dropped and the empty queue. -/
def clear (q : FrameQueue) : ℕ × FrameQueue :=
  (q.len,
    { queues := fun p => (q.queues p).drain (q.queues p).len
      capacity := q.capacity
      len := 0
      classes := by
        intro p frame hframe
        have hempty : ((q.queues p).drain (q.queues p).len).contents = [] := by
          rw [← List.length_eq_zero_iff, RingQueue.length_contents, RingQueue.len_drain]
        rw [hempty] at hframe
        cases hframe
      length_items := fun p => (RingQueue.length_items_drain _ _).trans (q.length_items p)
      len_eq := by simp [totalLen, RingQueue.len_drain]
      len_le := Nat.zero_le _ })

/-! ## What the operations do to the contents -/

/-- The frames of a class in the order in which they are queued. -/
def contents (q : FrameQueue) (p : Fin 4) : List Frame := (q.queues p).contents

/-- All frames of a queue, the most urgent class first. -/
def frames (q : FrameQueue) : List Frame :=
  q.contents 3 ++ q.contents 2 ++ q.contents 1 ++ q.contents 0

/-- The frames of a class among the frames of a list. -/
def classPart (p : Fin 4) (frames : List Frame) : List Frame :=
  frames.filter fun frame => frame.priorityClass = p

@[simp] theorem classPart_nil (p : Fin 4) : classPart p [] = [] := rfl

@[simp] theorem classPart_append (p : Fin 4) (xs ys : List Frame) :
    classPart p (xs ++ ys) = classPart p xs ++ classPart p ys :=
  List.filter_append _ _

variable {q q' : FrameQueue} {frame : Frame}

@[simp] theorem contents_new (capacity : ℕ) (hpos : 0 < capacity)
    (p : Fin 4) : (new capacity hpos).contents p = [] := rfl

theorem push_eq_none_iff : q.push frame = none ↔ q.len = q.capacity := by
  rw [push]
  split
  next hfull => exact ⟨fun _ => hfull, fun _ => rfl⟩
  next hfull => exact ⟨fun h => (Option.some_ne_none _ h).elim, fun h => absurd h hfull⟩

theorem push_queues (h : q.push frame = some q') :
    ∃ hroom, q'.queues = update q.queues frame.priorityClass
        ((q.queues frame.priorityClass).push frame hroom) ∧
      q'.len = q.len + 1 ∧ q'.capacity = q.capacity := by
  rw [push] at h
  split at h
  next => cases h
  next hfull =>
    cases h
    exact ⟨_, rfl, rfl, rfl⟩

theorem push_eq_some (h : q.push frame = some q') :
    (∀ p, q'.contents p = q.contents p ++ classPart p [frame]) ∧
      q'.len = q.len + 1 ∧ q'.capacity = q.capacity := by
  obtain ⟨hroom, hqueues, hcounts⟩ := push_queues h
  refine ⟨fun p => ?_, hcounts⟩
  rw [contents, contents, hqueues]
  by_cases hp : p = frame.priorityClass
  · rw [hp, update_self, RingQueue.contents_push]
    simp [classPart]
  · rw [update_of_ne hp]
    simp [classPart, Ne.symm hp]

variable {p : Fin 4} {ps : List (Fin 4)} {part : Fin 4 → List Frame}

theorem popClass_eq_none_iff : q.popClass p = none ↔ q.contents p = [] := by
  rw [contents, ← RingQueue.pop_eq_none_iff, popClass]
  split
  next h => exact ⟨fun _ => h, fun _ => rfl⟩
  next h => simp [h]

theorem popClass_queues (h : q.popClass p = some (frame, q')) :
    ∃ r, (q.queues p).pop = some (frame, r) ∧ q'.queues = update q.queues p r ∧ q'.len = q.len - 1 ∧
      q'.capacity = q.capacity := by
  rw [popClass] at h
  split at h
  next => cases h
  next frame' r hpop =>
    rw [Option.some.injEq, Prod.mk.injEq] at h
    obtain ⟨rfl, rfl⟩ := h
    exact ⟨r, hpop, rfl, rfl, rfl⟩

theorem popClass_eq_some (h : q.popClass p = some (frame, q')) :
    q.contents p = frame :: q'.contents p ∧ (∀ p', p' ≠ p → q'.contents p' = q.contents p') ∧
      q'.len + 1 = q.len ∧ q'.capacity = q.capacity := by
  obtain ⟨r, hpop, hqueues, hlen, hcapacity⟩ := popClass_queues h
  obtain ⟨hcontents, hr, _⟩ := RingQueue.pop_eq_some hpop
  have htotal := len_le_totalLen q.queues p
  have hq := q.len_eq
  refine ⟨?_, fun p' hp' => ?_, by omega, hcapacity⟩
  · rw [contents, contents, hqueues, update_self, hcontents]
  · rw [contents, contents, hqueues, update_of_ne hp']

theorem contents_popClass (h : q.popClass p = some (frame, q')) (p' : Fin 4) :
    q.contents p' = classPart p' [frame] ++ q'.contents p' := by
  obtain ⟨hcontents, hother, -, -⟩ := popClass_eq_some h
  have hclass : frame.priorityClass = p := by
    apply q.classes p frame
    change frame ∈ q.contents p
    rw [hcontents]
    exact List.mem_cons_self
  by_cases hp : p' = p
  · rw [hp, hcontents]
    simp [classPart, hclass]
  · have hne : frame.priorityClass ≠ p' := fun heq =>
      hp (heq.symm.trans hclass)
    rw [hother p' hp]
    simp [classPart, hne]

theorem popFirst_eq_some (h : q.popFirst ps = some (frame, q')) :
    ∃ p ∈ ps, q.popClass p = some (frame, q') := by
  induction ps with
  | nil => cases h
  | cons p rest ih =>
    rw [popFirst] at h
    split at h
    next popped hpop => exact ⟨p, List.mem_cons_self, hpop.trans h⟩
    · obtain ⟨p', hp', hclass⟩ := ih h
      exact ⟨p', List.mem_cons_of_mem _ hp', hclass⟩

theorem pop_eq_some (h : q.pop = some (frame, q')) : ∃ p, q.popClass p = some (frame, q') := by
  obtain ⟨p, _, hp⟩ := popFirst_eq_some h
  exact ⟨p, hp⟩

theorem popFirst_eq_none (h : q.popFirst ps = none) : ∀ p ∈ ps, q.contents p = [] := by
  induction ps with
  | nil => simp
  | cons p rest ih =>
    rw [popFirst] at h
    split at h
    · cases h
    next hpop =>
      rw [List.forall_mem_cons]
      exact ⟨popClass_eq_none_iff.mp hpop, ih h⟩

theorem pop_eq_none (h : q.pop = none) (p : Fin 4) : q.contents p = [] := by
  apply popFirst_eq_none h
  have hp : p = 0 ∨ p = 1 ∨ p = 2 ∨ p = 3 := by omega
  rcases hp with rfl | rfl | rfl | rfl
  all_goals simp

theorem mem_classes : ∀ p : Fin 4, p ∈ [(0 : Fin 4), 1, 2, 3] := by decide

def firsts (part : Fin 4 → List Frame) (ps : List (Fin 4)) : List (Fin 4 × Frame) :=
  ps.filterMap fun p => (part p).head?.map (p, ·)

/-- The class whose first frame is the earliest. -/
def eldest (part : Fin 4 → List Frame) : Option (Fin 4 × Frame) :=
  (firsts part [0, 1, 2, 3]).argmin fun first => first.2.sequence

theorem mem_firsts : (p, frame) ∈ firsts part ps ↔ p ∈ ps ∧ (part p).head? = some frame := by
  simp only [firsts, List.mem_filterMap, Option.map_eq_some_iff, Prod.mk.injEq]
  constructor
  · rintro ⟨p', hp', frame', hhead, rfl, rfl⟩
    exact ⟨hp', hhead⟩
  · rintro ⟨hp, hhead⟩
    exact ⟨p, hp, frame, hhead, rfl, rfl⟩

theorem head?_of_eldest (h : eldest part = some (p, frame)) : (part p).head? = some frame :=
  (mem_firsts.mp (List.argmin_mem h)).2

theorem eldest_le (h : eldest part = some (p, frame)) {p' : Fin 4} {frame' : Frame}
    {rest : List Frame} (hfirst : part p' = frame' :: rest) :
    frame.sequence ≤ frame'.sequence := by
  have hmem : (p', frame') ∈ firsts part [0, 1, 2, 3] := by
    rw [mem_firsts, hfirst]
    exact ⟨mem_classes p', rfl⟩
  exact List.le_of_mem_argmin (f := fun first => first.2.sequence) hmem h

theorem eldest_eq_none_iff : eldest part = none ↔ ∀ p, part p = [] := by
  rw [eldest, List.argmin_eq_none, firsts, List.filterMap_eq_nil_iff]
  simp only [Option.map_eq_none_iff, List.head?_eq_none_iff]
  exact ⟨fun h p => h p (mem_classes p), fun h p _ => h p⟩

theorem foldl_older (ps : List (Fin 4)) (best : Option (Fin 4 × Frame)) :
    ps.foldl q.older best = (firsts q.contents ps).foldl
      (List.argAux fun f g => f.2.sequence < g.2.sequence) best := by
  induction ps generalizing best with
  | nil => rfl
  | cons p rest ih =>
    rw [List.foldl_cons, ih, older, RingQueue.peek_eq_head?, firsts, firsts, ← contents]
    cases hhead : (q.contents p).head? with
    | none =>
      rw [List.filterMap_cons_none (by rw [hhead, Option.map_none])]
    | some frame =>
      rw [List.filterMap_cons_some (by rw [hhead, Option.map_some]), List.foldl_cons]
      rcases best with _ | ⟨p', oldest⟩
      · rfl
      · rfl

theorem select_eq_eldest (q : FrameQueue) : [0, 1, 2, 3].foldl q.older none = eldest q.contents :=
  foldl_older [0, 1, 2, 3] none

theorem popOldest_eq_popClass (h : q.popOldest = some (frame, q')) :
    ∃ p, q.popClass p = some (frame, q') ∧ eldest q.contents = some (p, frame) := by
  rw [popOldest, select_eq_eldest] at h
  split at h
  next => cases h
  next p oldest hselect =>
    have hhead := head?_of_eldest hselect
    rw [(popClass_eq_some h).1, List.head?_cons] at hhead
    cases hhead
    exact ⟨p, h, hselect⟩

theorem popOldest_eq_some (h : q.popOldest = some (frame, q')) :
    ∃ p, q.popClass p = some (frame, q') ∧ ∀ p' frame' rest, q.contents p' = frame' :: rest →
        frame.sequence ≤ frame'.sequence := by
  obtain ⟨p, hp, hselect⟩ := popOldest_eq_popClass h
  exact ⟨p, hp, fun _ _ _ => eldest_le hselect⟩

theorem popOldest_eq_none (h : q.popOldest = none) (p : Fin 4) : q.contents p = [] := by
  rw [popOldest, select_eq_eldest] at h
  split at h
  next hselect => exact eldest_eq_none_iff.mp hselect p
  next p' oldest hselect =>
    have hhead := head?_of_eldest hselect
    rw [popClass_eq_none_iff.mp h] at hhead
    cases hhead

theorem clear_spec (q : FrameQueue) : q.clear.1 = q.len ∧ q.clear.2.capacity = q.capacity ∧
      ∀ p, q.clear.2.contents p = [] := by
  refine ⟨rfl, rfl, ?_⟩
  intro p
  rw [← List.length_eq_zero_iff]
  exact RingQueue.length_contents.trans (RingQueue.len_drain _)

end FrameQueue

end GoWarp.StreamBus
