import Mathlib.Data.Set.Card
import Mathlib.Logic.Function.Basic

/-!
# The sliding-window TTL strategy

`SlidingWindow` keeps the times at which a key was accessed, and calls the key
hot if there are enough of them within the window.  Both `Record` and `TTL`
remove the times that have left the window.  The answers of `TTL` are compared
with earlier ones for two metrics: the number of adjustments, and the number
of hot keys.

Calls run under the mutex of the strategy and are single steps.  A log of calls
is kept with the newest call first, and says what the strategy should answer;
the clock readings of the calls do not decrease.
-/

namespace GoWarp.Cache.Adaptive

open Function (update update_of_ne update_self update_apply)

abbrev Key := String

/-- Nanoseconds from a fixed instant. -/
abbrev Instant := ℤ

/-- Nanoseconds. -/
abbrev Duration := ℤ

/-! ## The code -/

/-- `SlidingWindow`.  The metrics are `none` without a registerer. -/
structure SlidingWindow where
  window : Int64
  threshold : ℤ
  coldTTL : Duration
  hotTTL : Duration
  hits : Key → List Instant
  lastTTL : Key → Option Duration
  hotKeys : Finset Key
  adjustCounter : Option ℕ
  hotGauge : Option ℤ

namespace SlidingWindow

/-- `NewSlidingWindow`. -/
def new (window : Int64) (threshold : ℤ) (coldTTL hotTTL : Duration)
    (registered : Bool) : SlidingWindow where
  window := window
  threshold := threshold
  coldTTL := coldTTL
  hotTTL := hotTTL
  hits := fun _ => []
  lastTTL := fun _ => none
  hotKeys := ∅
  adjustCounter := if registered then some 0 else none
  hotGauge := if registered then some 0 else none

/-- `now.Add(-s.Window)`; the negation is one of 64 bits. -/
def cutoff (s : SlidingWindow) (now : Instant) : Instant := now + (-s.window).toInt

/-- The loop of `Record` and `TTL` over the times of a key. -/
def prune (s : SlidingWindow) (now : Instant) (timestamps : List Instant) :
    List Instant :=
  timestamps.filter fun t => s.cutoff now < t

def record (s : SlidingWindow) (now : Instant) (key : Key) : SlidingWindow :=
  { s with
    hits := update s.hits key (s.prune now (s.hits key ++ [now])) }

/-- The times of the key reach the threshold once they are pruned. -/
def finds (s : SlidingWindow) (now : Instant) (key : Key) : Bool :=
  s.threshold ≤ (s.prune now (s.hits key)).length

def ttlFor (s : SlidingWindow) (hot : Bool) : Duration := if hot then s.hotTTL else s.coldTTL

/-- The part of `TTL` that compares the answer with the last one. -/
def adjust (s : SlidingWindow) (key : Key) (ttl : Duration) : SlidingWindow :=
  if s.lastTTL key = some ttl then s
  else
    { s with
      adjustCounter := s.adjustCounter.map (· + 1)
      lastTTL := update s.lastTTL key (some ttl) }

/-- The part of `TTL` that keeps the set of hot keys. -/
def mark (s : SlidingWindow) (key : Key) (hot : Bool) : SlidingWindow :=
  if hot && !decide (key ∈ s.hotKeys) then
    { s with
      hotGauge := s.hotGauge.map (· + 1)
      hotKeys := insert key s.hotKeys }
  else if !hot && decide (key ∈ s.hotKeys) then
    { s with
      hotGauge := s.hotGauge.map (· - 1)
      hotKeys := s.hotKeys.erase key }
  else s

def ttl (s : SlidingWindow) (now : Instant) (key : Key) : Duration × SlidingWindow :=
  let hot := s.finds now key
  let pruned : SlidingWindow := { s with hits := update s.hits key (s.prune now (s.hits key)) }
  (s.ttlFor hot, (pruned.adjust key (s.ttlFor hot)).mark key hot)

end SlidingWindow

/-! ## Logs of calls -/

inductive Call where
  | record (key : Key)
  | ttl (key : Key)
deriving DecidableEq

structure Event where
  now : Instant
  call : Call
deriving DecidableEq

namespace SlidingWindow

def step (s : SlidingWindow) (e : Event) : SlidingWindow :=
  match e.call with
  | .record key => s.record e.now key
  | .ttl key => (s.ttl e.now key).2

/-- The state after the calls of a log. -/
def after (s : SlidingWindow) : List Event → SlidingWindow
  | [] => s
  | e :: earlier => (s.after earlier).step e

end SlidingWindow

/-- The call records an access to the key strictly after the instant. -/
def Event.recordsAfter (key : Key) (since : Instant) (e : Event) : Bool :=
  e.call = .record key ∧ since < e.now

/-- At least `threshold` of the recorded accesses are strictly after
`now - window`. -/
def isHot (window : Int64) (threshold : ℤ) (log : List Event) (now : Instant) (key : Key) : Bool :=
  threshold ≤ log.countP (Event.recordsAfter key (now - window.toInt))

/-- The `TTL` calls of a log, each with whether its key was hot. -/
def verdicts (window : Int64) (threshold : ℤ) : List Event → List (Key × Bool)
  | [] => []
  | ⟨now, .ttl key⟩ :: earlier =>
    (key, isHot window threshold earlier now key) :: verdicts window threshold earlier
  | ⟨_, .record _⟩ :: earlier => verdicts window threshold earlier

def mostRecent {α : Type} (key : Key) (entries : List (Key × α)) : Option α :=
  (entries.find? fun e => e.1 = key).map Prod.snd

/-- How many of the answers differ from the previous one for their key. -/
def adjustments : List (Key × Duration) → ℕ
  | [] => 0
  | (key, ttl) :: earlier =>
    adjustments earlier + if mostRecent key earlier = some ttl then 0 else 1

/-- Clock readings do not decrease. -/
def Chronological (log : List Event) : Prop :=
  log.Pairwise fun later earlier => earlier.now ≤ later.now

instance (log : List Event) : Decidable (Chronological log) :=
  inferInstanceAs (Decidable (log.Pairwise _))

/-! ## The parts of `TTL` -/

namespace SlidingWindow

variable (s : SlidingWindow) (key : Key)

theorem adjust_eq (ttl : Duration) : s.adjust key ttl = { s with
        adjustCounter := s.adjustCounter.map
          (· + if s.lastTTL key = some ttl then 0 else 1)
        lastTTL := update s.lastTTL key (some ttl) } := by
  by_cases hlast : s.lastTTL key = some ttl
  · rw [adjust, if_pos hlast, if_pos hlast, ← hlast, Function.update_eq_self]
    simp
  · rw [adjust, if_neg hlast, if_neg hlast]

/-- The keys that are hot after a verdict. -/
def marked (hot : Bool) : Finset Key := if hot then insert key s.hotKeys else s.hotKeys.erase key

theorem mark_eq (hot : Bool) : s.mark key hot = { s with
        hotGauge := s.hotGauge.map
          (· + (((s.marked key hot).card : ℤ) - s.hotKeys.card))
        hotKeys := s.marked key hot } := by
  rw [mark, marked]
  by_cases hmem : key ∈ s.hotKeys
  · cases hot with
    | true => simp [hmem]
    | false =>
      have hpos := Finset.card_pos.mpr ⟨key, hmem⟩
      have hcard : (((s.hotKeys.card - 1 : ℕ) : ℤ) - s.hotKeys.card) = -1 := by omega
      simp [hmem, Finset.card_erase_of_mem, hcard, sub_eq_add_neg]
  · cases hot with
    | true => simp [hmem]
    | false => simp [hmem]

theorem ttl_eq (now : Instant) : (s.ttl now key).2 = { s with
        hits := update s.hits key (s.prune now (s.hits key))
        adjustCounter := s.adjustCounter.map
          (· + if s.lastTTL key = some (s.ttlFor (s.finds now key)) then 0
            else 1)
        lastTTL := update s.lastTTL key (some (s.ttlFor (s.finds now key)))
        hotGauge := s.hotGauge.map
          (· + (((s.marked key (s.finds now key)).card : ℤ) - s.hotKeys.card))
        hotKeys := s.marked key (s.finds now key) } := by
  rw [ttl]
  rw [adjust_eq, mark_eq]
  rfl

theorem mem_marked {hot : Bool} {key' : Key} : key' ∈ s.marked key hot ↔
      if key' = key then hot = true else key' ∈ s.hotKeys := by
  rw [marked]
  by_cases hkey : key' = key
  · cases hot with
    | true => simp [hkey]
    | false => simp [hkey]
  · cases hot with
    | true => simp [hkey]
    | false => simp [hkey]

end SlidingWindow

theorem mostRecent_cons {α : Type} (key key' : Key) (a : α) (earlier : List (Key × α)) :
    mostRecent key' ((key, a) :: earlier) =
      if key' = key then some a else mostRecent key' earlier := by
  rw [mostRecent, List.find?_cons]
  by_cases hkey : key' = key
  · simp [hkey]
  · simp [hkey, Ne.symm hkey, mostRecent]

/-! ## What the strategy remembers of a log -/

section Tracks

variable (window : Int64) (threshold : ℤ) (coldTTL hotTTL : Duration) (registered : Bool)

/-- The answers of the `TTL` calls of a log. -/
def answers (log : List Event) : List (Key × Duration) :=
  (verdicts window threshold log).map fun v => (v.1, if v.2 then hotTTL else coldTTL)

/-- The strategy has all the times that a later call can ask for, and the
metrics are up to date. -/
structure Tracks (s : SlidingWindow) (log : List Event) : Prop where
  window_eq : s.window = window
  threshold_eq : s.threshold = threshold
  ttlFor_eq : ∀ hot, s.ttlFor hot = if hot then hotTTL else coldTTL
  hits : ∀ key since, (∀ e ∈ log, s.cutoff e.now ≤ since) →
    ((s.hits key).filter fun t => since < t).length = log.countP (Event.recordsAfter key since)
  lastTTL : ∀ key, s.lastTTL key = mostRecent key (answers window threshold coldTTL hotTTL log)
  hotKeys : ∀ key, key ∈ s.hotKeys ↔ mostRecent key (verdicts window threshold log) = some true
  hotGauge : s.hotGauge = if registered then some (s.hotKeys.card : ℤ) else none
  adjustCounter : s.adjustCounter =
    if registered then
      some (adjustments (answers window threshold coldTTL hotTTL log))
    else none

variable {window threshold coldTTL hotTTL registered} {s : SlidingWindow} {log : List Event}

theorem tracks_new : Tracks window threshold coldTTL hotTTL registered
      (.new window threshold coldTTL hotTTL registered) [] where
  window_eq := rfl
  threshold_eq := rfl
  ttlFor_eq _ := rfl
  hits _ _ _ := rfl
  lastTTL _ := rfl
  hotKeys key := by
    constructor
    · intro h
      exact absurd h (Finset.notMem_empty key)
    · intro h
      cases h
  hotGauge := rfl
  adjustCounter := rfl

theorem filter_prune {now since : Instant} (hsince : s.cutoff now ≤ since)
    (timestamps : List Instant) :
    (s.prune now timestamps).filter (fun t => since < t) =
      timestamps.filter fun t => since < t := by
  rw [SlidingWindow.prune, List.filter_filter]
  apply List.filter_congr
  intro t _
  rw [← Bool.decide_and]
  exact decide_eq_decide.mpr ⟨fun h => h.1, fun h => ⟨h, lt_of_le_of_lt hsince h⟩⟩

theorem Tracks.record (h : Tracks window threshold coldTTL hotTTL registered s log)
    (now : Instant) (key : Key) :
    Tracks window threshold coldTTL hotTTL registered (s.record now key)
      (⟨now, .record key⟩ :: log) where
  window_eq := h.window_eq
  threshold_eq := h.threshold_eq
  ttlFor_eq := h.ttlFor_eq
  hits := by
    intro key' since hsince
    obtain ⟨hnow, hlog⟩ := List.forall_mem_cons.mp hsince
    have hold := h.hits key' since hlog
    rw [SlidingWindow.record, List.countP_cons, ← hold]
    by_cases hkey : key' = key
    · subst hkey
      dsimp only
      rw [update_self, filter_prune (s := s) hnow, List.filter_append, List.length_append]
      by_cases hlt : since < now
      · simp [Event.recordsAfter, hlt]
      · simp [Event.recordsAfter, hlt]
    · dsimp only
      rw [update_of_ne hkey]
      simp [Event.recordsAfter, Ne.symm hkey]
  lastTTL := h.lastTTL
  hotKeys := h.hotKeys
  hotGauge := h.hotGauge
  adjustCounter := h.adjustCounter

theorem toInt_neg_of_ne (hwindow : window ≠ Int64.minValue) : (-window).toInt = -window.toInt := by
  have hne : window.toInt ≠ -2 ^ 63 := by
    intro heq
    exact hwindow (Int64.toInt_inj.mp heq)
  have hle := window.le_toInt
  have hlt := window.toInt_lt
  rw [Int64.toInt_neg]
  apply Int.bmod_eq_of_le
  · omega
  · omega

section

variable (h : Tracks window threshold coldTTL hotTTL registered s log)
include h

variable (hwindow : window ≠ Int64.minValue)
include hwindow

theorem Tracks.finds_eq {now : Instant} (hnow : ∀ e ∈ log, e.now ≤ now) (key : Key) :
    s.finds now key = isHot window threshold log now key := by
  have hcutoff : s.cutoff now = now - window.toInt := by
    rw [SlidingWindow.cutoff, h.window_eq, toInt_neg_of_ne hwindow]
    exact (sub_eq_add_neg _ _).symm
  have hhits := h.hits key (s.cutoff now) fun e he => Int.add_le_add_right (hnow e he) _
  rw [SlidingWindow.finds, isHot, SlidingWindow.prune, hhits, hcutoff, h.threshold_eq]

theorem Tracks.ttl {now : Instant} (hnow : ∀ e ∈ log, e.now ≤ now) (key : Key) :
    Tracks window threshold coldTTL hotTTL registered (s.ttl now key).2
      (⟨now, .ttl key⟩ :: log) := by
  have hfinds := h.finds_eq hwindow hnow key
  rw [SlidingWindow.ttl_eq, hfinds, h.ttlFor_eq]
  have hanswers : answers window threshold coldTTL hotTTL (⟨now, .ttl key⟩ :: log) =
      (key, if isHot window threshold log now key then hotTTL else coldTTL) ::
        answers window threshold coldTTL hotTTL log := rfl
  constructor
  case window_eq => exact h.window_eq
  case threshold_eq => exact h.threshold_eq
  case ttlFor_eq => exact h.ttlFor_eq
  case hits =>
    intro key' since hsince
    obtain ⟨hcut, hlog⟩ := List.forall_mem_cons.mp hsince
    have hskip : (⟨now, .ttl key⟩ : Event).recordsAfter key' since = false := by
      simp [Event.recordsAfter]
    rw [List.countP_cons_of_neg (by rw [hskip]; exact Bool.false_ne_true), ← h.hits key' since hlog]
    by_cases hkey : key' = key
    · subst hkey
      dsimp only
      rw [update_self, filter_prune (s := s) hcut]
    · dsimp only
      rw [update_of_ne hkey]
  case lastTTL =>
    intro key'
    rw [hanswers, mostRecent_cons, ← h.lastTTL key']
    exact update_apply _ _ _ _
  case hotKeys =>
    intro key'
    rw [SlidingWindow.mem_marked, verdicts, mostRecent_cons]
    by_cases hkey : key' = key
    · rw [if_pos hkey, if_pos hkey, Option.some_inj]
    · rw [if_neg hkey, if_neg hkey]
      exact h.hotKeys key'
  case hotGauge =>
    rw [h.hotGauge]
    cases registered with
    | false => rfl
    | true => exact congrArg some (add_sub_cancel _ _)
  case adjustCounter =>
    rw [hanswers, adjustments, ← h.lastTTL key, h.adjustCounter]
    cases registered with
    | false => rfl
    | true => rfl

theorem Tracks.step {e : Event} (hnow : ∀ e' ∈ log, e'.now ≤ e.now) :
    Tracks window threshold coldTTL hotTTL registered (s.step e) (e :: log) := by
  obtain ⟨now, call⟩ := e
  cases call with
  | record key => exact h.record now key
  | ttl key => exact h.ttl hwindow hnow key

end

variable (threshold coldTTL hotTTL registered)

theorem tracks_after (hwindow : window ≠ Int64.minValue) (hlog : Chronological log) :
    Tracks window threshold coldTTL hotTTL registered
      (SlidingWindow.after (.new window threshold coldTTL hotTTL registered) log) log := by
  induction log with
  | nil => exact tracks_new
  | cons e earlier ih =>
    obtain ⟨hnow, hearlier⟩ := List.pairwise_cons.mp hlog
    exact (ih hearlier).step hwindow hnow

/-- Take any window but the least 64-bit integer, any threshold, any TTLs and any
log of calls whose clock readings do not decrease.  The next `TTL` call then
answers with the TTL of hot keys exactly if at least as many accesses to the key
as the threshold have been recorded strictly after `now - window`.  The gauge
is the number of keys whose most recent `TTL` call found them hot, and the
counter is the number of `TTL` calls whose answer differed from the previous one
for their key. -/
theorem hotness_exact (hwindow : window ≠ Int64.minValue) (hlog : Chronological log) :
    (∀ now key, (∀ e ∈ log, e.now ≤ now) →
      ((SlidingWindow.after (.new window threshold coldTTL hotTTL registered) log).ttl now key).1 =
        if threshold ≤ log.countP (Event.recordsAfter key (now - window.toInt)) then hotTTL
        else coldTTL) ∧
    (SlidingWindow.after (.new window threshold coldTTL hotTTL registered)
      log).hotGauge = (if registered then
        some (({key | mostRecent key (verdicts window threshold log) = some true}.ncard : ℕ) : ℤ)
        else none) ∧
    (SlidingWindow.after (.new window threshold coldTTL hotTTL registered)
      log).adjustCounter = (if registered then
        some (adjustments (answers window threshold coldTTL hotTTL log))
        else none) := by
  have htracks := tracks_after threshold coldTTL hotTTL registered hwindow hlog
  refine ⟨?_, ?_, htracks.adjustCounter⟩
  · intro now key hnow
    rw [SlidingWindow.ttl]
    rw [htracks.finds_eq hwindow hnow key, htracks.ttlFor_eq, isHot]
    simp only [decide_eq_true_eq]
  · rw [htracks.hotGauge, ← Set.ncard_coe_finset]
    congr 4
    ext key
    exact htracks.hotKeys key

end Tracks

/-- Two accesses, a verdict, and another verdict when the first access has left
the window. -/
def coolingLog : List Event :=
  [⟨60, .ttl "k"⟩, ⟨30, .ttl "k"⟩, ⟨20, .record "k"⟩, ⟨10, .record "k"⟩]

theorem hotness_exact_coolingLog :
    ((SlidingWindow.after (.new 50 2 1 5 true) coolingLog).ttl 60 "k").1 = 1 ∧
      (SlidingWindow.after (.new 50 2 1 5 true) coolingLog).adjustCounter =
        some 2 := by
  have hlog : Chronological coolingLog := by decide
  have hwindow : (50 : Int64) ≠ Int64.minValue := by decide
  obtain ⟨httl, -, hcounter⟩ := hotness_exact 2 1 5 true hwindow hlog
  exact ⟨httl 60 "k" (by decide), hcounter⟩

/-- The least 64-bit integer is its own negation: with this window, an access
counts although it is not after `now - window`. -/
theorem hot_with_least_window : ((SlidingWindow.after (.new Int64.minValue 1 1 5 true)
      [⟨10, .record "k"⟩]).ttl 20 "k").1 = 5 ∧
    ¬(1 : ℤ) ≤ [⟨10, .record "k"⟩].countP (Event.recordsAfter "k" (20 - Int64.minValue.toInt)) := by
  decide

end GoWarp.Cache.Adaptive
