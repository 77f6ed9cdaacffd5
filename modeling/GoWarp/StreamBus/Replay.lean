import GoWarp.StreamBus.Types
import GoWarp.Support.Recent
import GoWarp.Support.Ring

/-!
# The journal of a topic

A circular buffer that overwrites its oldest frame when it is full.  Its
contents are the last frames added, as many as it has cells.
-/

namespace GoWarp.StreamBus

open Support

/-- `replayBuffer`.  The bus creates no buffer without cells. -/
structure ReplayBuffer where
  frames : List Frame
  next : ℕ
  len : ℕ
  next_lt : next < frames.length
  len_le : len ≤ frames.length

namespace ReplayBuffer

/-- `newReplayBuffer`. -/
def new (capacity : ℕ) (hpos : 0 < capacity) : ReplayBuffer where
  frames := List.replicate capacity Frame.zero
  next := 0
  len := 0
  next_lt := Ring.length_replicate_pos Frame.zero hpos
  len_le := (Ring.length_replicate_pos Frame.zero hpos).le

def capacity (r : ReplayBuffer) : ℕ := r.frames.length

theorem capacity_pos (r : ReplayBuffer) : 0 < r.capacity :=
  Nat.lt_of_le_of_lt (Nat.zero_le _) r.next_lt

def add (r : ReplayBuffer) (frame : Frame) : ReplayBuffer where
  frames := Ring.write r.frames r.next frame
  next := (r.next + 1) % r.frames.length
  len := if r.len < r.frames.length then r.len + 1 else r.len
  next_lt := by
    rw [Ring.length_write]
    exact Nat.mod_lt _ r.capacity_pos
  len_le := by
    have hle := r.len_le
    rw [Ring.length_write]
    split
    · omega
    · exact hle

/-- The `count` cells before the next one to be written. -/
def latest (r : ReplayBuffer) (count : ℕ) : List Frame :=
  Ring.window r.frames Frame.zero ((r.next + r.frames.length - count) % r.frames.length) count

def last (r : ReplayBuffer) (count : ℕ) : List Frame :=
  r.latest (if r.len < count then r.len else count)

def oldest (r : ReplayBuffer) : Frame :=
  Ring.slot r.frames Frame.zero ((r.next + r.frames.length - r.len) % r.frames.length)

/-- `replayBuffer.after`: the frames after a sequence, and whether frames after
it are known to be lost. -/
def after (r : ReplayBuffer) (sequence : ℕ) : List Frame × Bool :=
  if r.len = 0 then
    ([], false)
  else if r.len = r.frames.length ∧ sequence ≠ 0 ∧ sequence < r.oldest.sequence then
    ([], true)
  else
    ((r.latest r.len).filter fun frame => sequence < frame.sequence, false)

/-! ## Contents -/

def contents (r : ReplayBuffer) : List Frame := r.latest r.len

variable {r : ReplayBuffer}

@[simp] theorem length_latest (count : ℕ) : (r.latest count).length = count := by simp [latest]

@[simp] theorem length_contents : r.contents.length = r.len := length_latest _

@[simp] theorem capacity_add (frame : Frame) : (r.add frame).capacity = r.capacity :=
  Ring.length_write _ _ _

@[simp] theorem contents_new (capacity : ℕ) (hpos : 0 < capacity) :
    (new capacity hpos).contents = [] := rfl

theorem latest_eq (count : ℕ) : r.latest count = Ring.window r.frames Frame.zero
      (r.next + r.frames.length - count) count :=
  Ring.window_congr _ (Nat.mod_mod _ _) _

theorem latest_eq_rtake {count : ℕ} (hle : count ≤ r.len) :
    r.latest count = r.contents.rtake count := by
  have hlen := r.len_le
  have hsplit : r.contents = Ring.window r.frames Frame.zero (r.next + r.frames.length - r.len)
        (r.len - count) ++ r.latest count := by
    have hsum : r.len = r.len - count + count := by omega
    have hstart : r.next + r.frames.length - r.len + (r.len - count) =
        r.next + r.frames.length - count := by omega
    rw [contents, latest_eq, latest_eq]
    nth_rewrite 2 [hsum]
    rw [Ring.window_add, hstart]
  rw [List.rtake_eq_reverse_take_reverse, hsplit, List.reverse_append,
    List.take_left', List.reverse_reverse]
  simp

theorem last_eq_rtake (count : ℕ) : r.last count = r.contents.rtake count := by
  rw [last]
  split
  next hlt =>
    rw [← contents, List.rtake, length_contents, Nat.sub_eq_zero_of_le hlt.le, List.drop_zero]
  next hlt => exact latest_eq_rtake (Nat.le_of_not_lt hlt)

theorem start_add {n next m : ℕ} (hnext : next < n) (hm : m < n) :
    ((next + 1) % n + n - (m + 1)) % n = (next + n - m) % n := by
  rcases Nat.lt_or_ge (next + 1) n with hlt | hge
  · have hsame : next + 1 + n - (m + 1) = next + n - m := by omega
    rw [Nat.mod_eq_of_lt hlt, hsame]
  · have hturn : next + n - m = 0 + n - (m + 1) + n := by omega
    have hzero : (next + 1) % n = 0 := by
      have heq : next + 1 = n := by omega
      rw [heq, Nat.mod_self]
    rw [hzero, hturn, Nat.add_mod_right]

theorem contents_add (frame : Frame) :
    (r.add frame).contents = (r.contents ++ [frame]).rtake r.capacity := by
  have hpos := r.capacity_pos
  have hlen := r.len_le
  have hnext := r.next_lt
  have hframes : (r.add frame).frames = Ring.write r.frames r.next frame := rfl
  have hnext' : (r.add frame).next = (r.next + 1) % r.frames.length := rfl
  rw [List.rtake, List.length_append, length_contents, List.length_singleton]
  rw [capacity] at hpos ⊢
  by_cases hlt : r.len < r.frames.length
  · have hdrop : r.len + 1 - r.frames.length = 0 := by omega
    have hlen' : (r.add frame).len = r.len + 1 := if_pos hlt
    have hcell : Ring.write r.frames r.next frame =
        Ring.write r.frames (r.next + r.frames.length - r.len + r.len)
          frame := by
      apply Ring.write_congr
      have hsum : r.next + r.frames.length - r.len + r.len = r.next + r.frames.length := by omega
      rw [hsum, Nat.add_mod_right]
    have hwindow : (r.add frame).contents =
        Ring.window (Ring.write r.frames r.next frame) Frame.zero
          (r.next + r.frames.length - r.len) (r.len + 1) := by
      rw [contents, hlen', latest_eq, hframes, hnext', Ring.length_write]
      apply Ring.window_congr
      rw [Ring.length_write]
      exact start_add hnext hlt
    rw [hdrop, List.drop_zero, hwindow, hcell, Ring.window_write_end _ hlt]
    rw [contents, latest_eq]
  · have hfull : r.len = r.frames.length := by omega
    have hlen' : (r.add frame).len = r.frames.length := by
      rw [← hfull]
      exact if_neg hlt
    have hold : r.contents =
        Ring.window r.frames Frame.zero r.next r.frames.length := by
      rw [contents, latest_eq, hfull, Nat.add_sub_cancel]
    have hwindow : (r.add frame).contents =
        Ring.window (Ring.write r.frames r.next frame) Frame.zero (r.next + 1) r.frames.length := by
      rw [contents, hlen', latest_eq, hframes, hnext', Ring.length_write, Nat.add_sub_cancel]
      apply Ring.window_congr
      rw [Ring.length_write, Nat.mod_mod]
    have hone : r.len + 1 - r.frames.length = 1 := by omega
    have hne : r.contents ≠ [] := by
      rw [← List.length_pos_iff, length_contents]
      omega
    rw [hwindow, Ring.window_write_full _ hpos, ← hold, hone, List.drop_one,
      List.tail_append_of_ne_nil hne]

theorem oldest_eq_head (hne : r.len ≠ 0) : r.contents.head? = some r.oldest := by
  obtain ⟨n, hn⟩ := Nat.exists_eq_succ_of_ne_zero hne
  rw [contents, latest, oldest, hn, Nat.succ_eq_add_one, Ring.window_cons]
  rfl

theorem after_eq {sequence : ℕ} (hgap : (r.after sequence).2 = false) : (r.after sequence).1 =
      r.contents.filter fun frame => sequence < frame.sequence := by
  rw [after] at hgap ⊢
  by_cases hempty : r.len = 0
  · have hnil : r.contents = [] := by
      rw [← List.length_eq_zero_iff, length_contents, hempty]
    rw [if_pos hempty, hnil]
    rfl
  · rw [if_neg hempty] at hgap ⊢
    split at hgap
    next => cases hgap
    next hno => rw [if_neg hno, contents]

theorem after_gap_iff {sequence : ℕ} : (r.after sequence).2 = true ↔
      r.len = r.capacity ∧ sequence ≠ 0 ∧ sequence < r.oldest.sequence := by
  have hpos := r.capacity_pos
  rw [after]
  split
  · constructor
    · intro h
      cases h
    · intro h
      omega
  · split
    next h => exact ⟨fun _ => h, fun _ => rfl⟩
    next h => exact ⟨fun hfalse => absurd hfalse Bool.false_ne_true, fun hgap => absurd hgap h⟩

end ReplayBuffer

end GoWarp.StreamBus
