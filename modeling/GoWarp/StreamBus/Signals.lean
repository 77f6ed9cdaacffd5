import GoWarp.StreamBus.Conservation

/-!
# Signals between publishers and the delivery goroutine

A token in `notify` says that the queue may have a frame, and one in `space`
that it may have room.  Both channels hold one token, and a signal to a channel
that holds one is lost.

That is harmless for `notify`, whose only receiver empties the queue before it
looks at the channel again.  A publisher that has received from `space` takes
one slot only.  When two slots are freed and the second signal is lost, a
publisher may wait beside a free slot.
-/

namespace GoWarp.StreamBus

open Support

/-- A publisher in this phase has failed to push and has not been woken. -/
def CallPhase.isBlocked : CallPhase → Bool
  | .blocked | .waiting => true
  | _ => false

/-- A publisher in this phase has been woken and has not tried again. -/
def CallPhase.isWoken : CallPhase → Bool
  | .woken => true
  | _ => false

/-- The signals to `space` that the delivery goroutine has yet to send for the
frames it has popped. -/
def RunPhase.owed : RunPhase → ℕ
  | .popped => 1
  | _ => 0

namespace Endpoint

variable {options : ValidOptions} {e e' : Endpoint}

/-! ## No frame is forgotten -/

/-- A call has put its frame into the queue and has not signalled yet. -/
def Signalling (e : Endpoint) : Prop := ∃ c ∈ e.calls, c.phase = .signalling

/-- A delivery goroutine that waits while there are frames has a token to
receive, or one is about to be sent. -/
def Announced (e : Endpoint) : Prop :=
  e.run = .waiting → e.notify = false → 0 < e.sub.queue.len → e.Signalling ∨ e.setup = .preloading

variable {i : ℕ}

theorem Signalling.set (h : e.Signalling) {c c' : EnqueueCall} (hc : e.calls[i]? = some c)
    (hphase : c.phase = .signalling → c'.phase = .signalling) :
    ∃ c ∈ e.calls.set i c', c.phase = .signalling := by
  obtain ⟨c₀, hmem, hc₀⟩ := h
  obtain ⟨j, hj⟩ := List.mem_iff_getElem?.mp hmem
  by_cases hij : i = j
  · subst hij
    obtain rfl := Option.mem_unique hc hj
    refine ⟨c', ?_, hphase hc₀⟩
    exact List.mem_iff_getElem?.mpr ⟨i, Entries.getElem?_set_of_getElem? hc c'⟩
  · refine ⟨c₀, ?_, hc₀⟩
    exact List.mem_iff_getElem?.mpr ⟨j, (List.getElem?_set_ne hij).trans hj⟩

theorem Announced.goto (h : e.Announced) {c c' : EnqueueCall} (hc : e.calls[i]? = some c)
    (hphase : c.phase = .signalling → c'.phase = .signalling)
    (hcalls : e'.calls = e.calls.set i c') (hrun : e'.run = e.run)
    (hnotify : e'.notify = e.notify) (hqueue : e'.sub.queue = e.sub.queue)
    (hsetup : e'.setup = e.setup) : e'.Announced := by
  intro hwaiting hempty hlen
  rw [hrun] at hwaiting
  rw [hnotify] at hempty
  rw [hqueue] at hlen
  rw [hsetup]
  refine (h hwaiting hempty hlen).imp_left fun hsignalling => ?_
  rw [Signalling, hcalls]
  exact hsignalling.set hc hphase

theorem Announced.ofCall (h : e.Announced) {c : EnqueueCall}
    {a : CallEvent} (hc : e.calls[i]? = some c) (hmoves : CallMoves e i c a e') : e'.Announced := by
  cases hmoves with
  | cancelParked hphase | park hphase hspace hctx hdone
  | takeSpace hphase hspace | giveUp hphase hctx =>
    exact h.goto hc (by simp [hphase]) rfl rfl rfl rfl rfl
  | cancel hphase =>
    refine h.goto hc ?_ rfl rfl rfl rfl rfl
    exact id
  | done hphase henqueue | block hphase henqueue =>
    refine h.goto hc (fun hs => ?_) rfl rfl rfl rfl rfl
    exact absurd hs (not_accepted_of_trying hphase).1
  | accept hphase sub henqueue =>
    by_cases hnone : e.sub.enters c.frame = []
    · refine h.goto hc (fun hs => ?_) rfl rfl rfl ?_ rfl
      · exact absurd hs (not_accepted_of_trying hphase).1
      · exact Subscription.queue_of_enters_nil henqueue hnone
    · intro _ _ _
      left
      refine ⟨_, List.mem_iff_getElem?.mpr ⟨i, Entries.getElem?_set_of_getElem? hc _⟩, ?_⟩
      exact if_neg hnone
  | seeDone hphase hdone =>
    refine h.goto hc (fun hs => ?_) rfl rfl rfl rfl rfl
    rcases hphase with hphase | hphase
    all_goals simp [hphase] at hs
  | signal hphase =>
    intro _ hnotify _
    cases hnotify

theorem Announced.step (h : e.Announced) {a : EndpointEvent}
    (hempty : e.EmptyHanded) (hmoves : Moves e a e') : e'.Announced := by
  cases hmoves with
  | preload frames hsetup =>
    intro _ _ _
    exact .inr rfl
  | preloadSignal hsetup =>
    intro _ hnotify hlen
    have hsent : (e.notify || decide (0 < e.sub.queue.len)) = true := by
      rw [decide_eq_true hlen, Bool.or_true]
    exact absurd (hsent.symm.trans hnotify) (by decide)
  | register hsetup =>
    intro hwaiting hnotify hlen
    refine .inl ((h hwaiting hnotify hlen).resolve_right ?_)
    rcases hsetup with hsetup | hsetup
    all_goals simp [hsetup]
  | call frame ctxDone hsetup =>
    intro hwaiting hnotify hlen
    refine (h hwaiting hnotify hlen).imp_left ?_
    rintro ⟨c, hc, hphase⟩
    exact ⟨c, List.mem_append_left _ hc, hphase⟩
  | ofCall i c a e' hc hmoves => exact h.ofCall hc hmoves
  | popNothing hrun hpump =>
    intro _ _ hlen
    have hzero := Subscription.len_of_pump_eq_none (hempty (.inr (.inl hrun))) hpump
    exact absurd hzero hlen.ne'
  | markClosed => exact h
  | closeDone hclosed => exact h
  | takeNotify | pop | wake | signalSpace | receive | count | stop =>
    intro hwaiting
    cases hwaiting

/-- The delivery goroutine does not wait without a token while frames are in
the queue, unless a call or the preload has yet to send its signal. -/
theorem no_frame_forgotten (h : e.Reachable options)
    (hwaiting : e.run = .waiting) (hnotify : e.notify = false)
    (hqueue : 0 < e.sub.queue.len) :
    (∃ c ∈ e.calls, c.phase = .signalling) ∨ e.setup = .preloading := by
  have hannounced : e.Announced := by
    apply h.invariant
    · intro id _ _ hlen
      cases hlen
    · intro e a e' hreach hannounced hmoves
      exact hannounced.step hreach.emptyHanded hmoves
  exact hannounced hwaiting hnotify hqueue

/-- Two calls put frames into the queue before the delivery goroutine runs. -/
def unannounced : List EndpointEvent :=
  [.register, .call (numbered 1) false, .ofCall 0 .attempt,
    .call (numbered 2) false, .ofCall 1 .attempt]

theorem no_frame_forgotten_unannounced :
    ∃ e : Endpoint, e.Reachable (withBuffer 2 block (by decide)) ∧
      e.run = .waiting ∧ e.notify = false ∧ e.sub.queue.len = 2 ∧
      ((∃ c ∈ e.calls, c.phase = .signalling) ∨ e.setup = .preloading) := by
  have hreach : Reachable (withBuffer 2 block (by decide)) _ := ⟨0, unannounced, rfl⟩
  refine ⟨_, hreach, rfl, rfl, rfl, ?_⟩
  exact no_frame_forgotten hreach rfl rfl (by decide)

/-! ## Publishers that wait for room -/

/-- The number of publishers that have failed to push and have not been
woken. -/
def blockedCount (calls : List EnqueueCall) : ℕ := calls.countP fun c => c.phase.isBlocked

/-- The number of publishers that have received from `space` and have not
tried again. -/
def wokenCount (calls : List EnqueueCall) : ℕ := calls.countP fun c => c.phase.isWoken

/-- The number of free slots of the queue. -/
def free (e : Endpoint) : ℕ := e.sub.queue.capacity - e.sub.queue.len

/-- The number of tokens in `space`, and of tokens on their way to it. -/
def tokens (e : Endpoint) : ℕ := e.space.toNat + e.run.owed

/-- Every free slot is announced to a publisher, or every publisher that waits
has a token. -/
def Balanced (e : Endpoint) : Prop :=
  e.free ≤ e.tokens + wokenCount e.calls ∨ blockedCount e.calls ≤ e.tokens

/-- A signal to `space` is lost only when at most one publisher waits, or when
the publishers that have been woken, and the one that the token is for, are
enough for all free slots. -/
def KeepsUp (e : Endpoint) (a : EndpointEvent) : Prop :=
  a = .signalSpace none → e.space = true →
    blockedCount e.calls ≤ 1 ∨ e.free ≤ 1 + wokenCount e.calls

instance (e : Endpoint) (a : EndpointEvent) : Decidable (e.KeepsUp a) :=
  inferInstanceAs (Decidable (_ → _ → _ ∨ _))

theorem counts_set {c : EnqueueCall} (hc : e.calls[i]? = some c) (c' : EnqueueCall) :
    blockedCount (e.calls.set i c') + (if c.phase.isBlocked then 1 else 0) =
      blockedCount e.calls + (if c'.phase.isBlocked then 1 else 0) ∧
    wokenCount (e.calls.set i c') + (if c.phase.isWoken then 1 else 0) =
      wokenCount e.calls + if c'.phase.isWoken then 1 else 0 :=
  ⟨Entries.countP_set_add _ hc c', Entries.countP_set_add _ hc c'⟩

namespace Balanced

variable (h : e.Balanced)
include h

theorem of_le (hfree : e'.free + (e.tokens + wokenCount e.calls) ≤
      e.free + (e'.tokens + wokenCount e'.calls)) (hblocked : blockedCount e'.calls + e.tokens ≤
      blockedCount e.calls + e'.tokens) : e'.Balanced := by
  rcases h with h | h
  · left
    omega
  · right
    omega

theorem goto {i : ℕ} {c c' : EnqueueCall}
    (hc : e.calls[i]? = some c) (hcalls : e'.calls = e.calls.set i c')
    (hsub : e'.free = e.free) (htokens : e'.tokens = e.tokens)
    (hblocked : c'.phase.isBlocked → c.phase.isBlocked)
    (hwoken : c.phase.isWoken → c'.phase.isWoken) : e'.Balanced := by
  obtain ⟨hb, hw⟩ := counts_set hc c'
  rw [← hcalls] at hb hw
  apply h.of_le
  · rw [hsub, htokens]
    split_ifs at hw
    all_goals grind
  · rw [htokens]
    split_ifs at hb
    all_goals grind

theorem ofCall {i : ℕ} {c : EnqueueCall} {a : CallEvent}
    (hblocks : e.sub.options.Blocks) (hopen : e.sub.closed = false)
    (hc : e.calls[i]? = some c) (hmoves : CallMoves e i c a e') :
    e'.Balanced := by
  cases hmoves with
  | cancelParked hphase | giveUp hphase hctx | signal hphase =>
    refine h.goto hc rfl rfl rfl ?_ ?_
    · simp [CallPhase.isBlocked]
    · simp [CallPhase.isWoken, hphase]
  | cancel hphase =>
    refine h.goto hc rfl rfl rfl ?_ ?_
    · exact id
    · exact id
  | done hphase henqueue =>
    have hclosed := Subscription.closed_of_enqueue_done henqueue
    exact absurd (hclosed.symm.trans hopen) (by decide)
  | block hphase henqueue =>
    left
    have hfull := (Subscription.enqueue_of_blocks hblocks).1 henqueue
    change e.sub.queue.capacity - e.sub.queue.len ≤ _
    omega
  | accept hphase sub henqueue =>
    obtain ⟨hlen, hcapacity⟩ := (Subscription.enqueue_of_blocks hblocks).2 sub henqueue
    have hle := sub.queue.len_le
    set phase : CallPhase :=
      if e.sub.enters c.frame = [] then .returned none else .signalling
      with hdef
    have hnew : phase.isBlocked = false ∧ phase.isWoken = false := by
      rw [hdef]
      split
      next => exact ⟨rfl, rfl⟩
      next => exact ⟨rfl, rfl⟩
    have hold : c.phase.isBlocked = false := by
      rcases hphase with hphase | hphase
      all_goals rw [hphase]; rfl
    obtain ⟨hb, hw⟩ := counts_set hc { c with phase := phase }
    simp only [hnew, hold, Bool.false_eq_true, if_false] at hb hw
    apply h.of_le
    · change sub.queue.capacity - sub.queue.len + _ ≤ e.sub.queue.capacity - e.sub.queue.len +
          (e.tokens + wokenCount (e.calls.set i { c with phase := phase }))
      split at hw
      all_goals omega
    · change blockedCount (e.calls.set i { c with phase := phase }) + _ ≤ _
      exact Nat.le_of_eq (congrArg (· + e.tokens) hb)
  | park hphase hspace hctx hdone =>
    refine h.goto hc rfl rfl rfl ?_ ?_
    · simp [CallPhase.isBlocked, hphase]
    · simp [CallPhase.isWoken, hphase]
  | takeSpace hphase hspace =>
    obtain ⟨hb, hw⟩ := counts_set hc { c with phase := .woken }
    simp only [hphase, CallPhase.isBlocked, CallPhase.isWoken, if_true,
      Bool.false_eq_true, if_false] at hb hw
    have htokens : ({ e with space := false }.goto i c .woken).tokens + 1 =
        e.tokens := by
      change 0 + e.run.owed + 1 = e.space.toNat + e.run.owed
      rw [hspace]
      exact (Nat.add_right_comm 0 1 e.run.owed).symm
    apply h.of_le
    · change e.free + _ ≤ e.free + (_ + wokenCount (e.calls.set i _))
      omega
    · change blockedCount (e.calls.set i _) + _ ≤ _
      omega
  | seeDone hphase hdone =>
    refine h.goto hc rfl rfl rfl ?_ ?_
    · simp [CallPhase.isBlocked]
    · rcases hphase with hphase | hphase
      all_goals simp [CallPhase.isWoken, hphase]

theorem step {a : EndpointEvent} (hpre : e.Preloaded)
    (hblocks : e.sub.options.Blocks) (hopen : e.sub.closed = false)
    (hkeeps : e.KeepsUp a) (hmoves : Moves e a e') : e'.Balanced := by
  cases hmoves with
  | preload frames hsetup =>
    right
    have hnone := hpre.calls (by simp [hsetup])
    change blockedCount e.calls ≤ _
    rw [hnone]
    exact Nat.zero_le _
  | call frame ctxDone hsetup =>
    apply h.of_le
    · simp [wokenCount, CallPhase.isWoken, tokens, free]
    · simp [blockedCount, CallPhase.isBlocked, tokens]
  | ofCall i c a e' hc hmoves => exact h.ofCall hblocks hopen hc hmoves
  | pop hrun sub hpump =>
    obtain ⟨frame, r, -, hpop, rfl⟩ := Subscription.pump_eq_some hpump
    obtain ⟨p, hp⟩ := FrameQueue.pop_eq_some hpop
    obtain ⟨-, -, hlen, hcapacity⟩ := FrameQueue.popClass_eq_some hp
    have htokens : e.tokens = e.space.toNat + 0 := by rw [tokens, hrun]; rfl
    apply h.of_le
    · change r.capacity - r.len + (e.tokens + wokenCount e.calls) ≤
        e.sub.queue.capacity - e.sub.queue.len + (e.space.toNat + 1 + wokenCount e.calls)
      omega
    · change blockedCount e.calls + e.tokens ≤ blockedCount e.calls + (e.space.toNat + 1)
      omega
  | wake i c hc hrun hphase =>
    obtain ⟨hb, hw⟩ := counts_set hc { c with phase := .woken }
    simp only [hphase, CallPhase.isBlocked, CallPhase.isWoken, if_true,
      Bool.false_eq_true, if_false] at hb hw
    have htokens : e.tokens = e.space.toNat + 1 := by rw [tokens, hrun]; rfl
    apply h.of_le
    · change e.free + _ ≤ e.free + (e.space.toNat + 0 + wokenCount (e.calls.set i _))
      omega
    · change blockedCount (e.calls.set i _) + _ ≤
        _ + (e.space.toNat + 0)
      omega
  | signalSpace hrun hparked =>
    have htokens : e.tokens = e.space.toNat + 1 := by rw [tokens, hrun]; rfl
    rcases hspace : e.space with _ | _
    · -- the token is kept
      rw [hspace] at htokens
      apply h.of_le
      · change e.free + (e.tokens + _) ≤ e.free + (1 + 0 + _)
        rw [htokens]
        rfl
      · change _ + e.tokens ≤ _ + (1 + 0)
        rw [htokens]
        rfl
    · -- the token is lost
      rcases hkeeps rfl hspace with hfew | hroom
      · exact .inr hfew
      · exact .inl hroom
  | stop hrun =>
    have htokens : e.tokens = e.space.toNat + 0 := by
      rcases hrun with hrun | hrun
      all_goals rw [tokens, hrun]; rfl
    exact h.of_le (by rw [htokens]; rfl) (by rw [htokens]; rfl)
  | takeNotify hrun | popNothing hrun | receive frame hrun | count hrun =>
    have htokens : e.tokens = e.space.toNat + 0 := by rw [tokens, hrun]; rfl
    exact h.of_le (by rw [htokens]; rfl) (by rw [htokens]; rfl)
  | _ => exact h

end Balanced

theorem space_or_popped (h : 0 < e.tokens) : e.space = true ∨ e.run = .popped := by
  rw [tokens] at h
  rcases hspace : e.space with _ | _
  · rw [hspace, Bool.toNat_false, Nat.zero_add] at h
    rcases hrun : e.run
    all_goals simp_all [RunPhase.owed]
  · exact .inl rfl

theorem phase_of_isWoken {phase : CallPhase} (h : phase.isWoken = true) : phase = .woken := by
  rcases phase with _ | _ | _ | _ | _ | _
  all_goals first | rfl | cases h

/-- A publisher that waits on `space` waits for capacity: the queue is full, a
token is in the channel, another publisher has been woken and has not tried
again, or the delivery goroutine has popped a frame and has yet to signal. -/
theorem waits_for_capacity {id : ℕ} {events : List EndpointEvent} (hblocks : options.Blocks)
    (hrun : Machine.run step (new id options) events = some e)
    (hkeeps : Machine.AllSteps step KeepsUp (new id options) events)
    (hopen : e.sub.closed = false)
    (hwaiting : ∃ c ∈ e.calls, c.phase = .waiting) :
    e.sub.queue.len = e.sub.queue.capacity ∨ e.space = true ∨
      (∃ c ∈ e.calls, c.phase = .woken) ∨ e.run = .popped := by
  have hinv : e.Reachable options ∧ (e.sub.closed = false → e.Balanced) := by
    refine Machine.run_invariant_of_allSteps step (I := fun e => e.Reachable options ∧
        (e.sub.closed = false → e.Balanced)) ?_ hrun hkeeps ?_
    · rintro e a e' ⟨hreach, hbalanced⟩ hkeeps hstep
      refine ⟨hreach.step hstep, fun hopen' => ?_⟩
      have hmoves := moves_of_step hstep
      have hopen := hmoves.closed_mono hreach.conserved.pos hopen'
      refine (hbalanced hopen).step hreach.preloaded ?_ hopen hkeeps hmoves
      rw [hreach.options_capacity.1]
      exact hblocks
    · exact ⟨⟨id, [], rfl⟩, fun _ => .inr (Nat.zero_le _)⟩
  have hblocked : 0 < blockedCount e.calls := by
    obtain ⟨c, hc, hphase⟩ := hwaiting
    exact List.countP_pos_iff.mpr ⟨c, hc, by rw [hphase]; rfl⟩
  by_cases hfull : e.sub.queue.len = e.sub.queue.capacity
  · exact .inl hfull
  · have hfree : 0 < e.free := by
      have hle := e.sub.queue.len_le
      rw [free]
      omega
    right
    have hsome : 0 < e.tokens ∨ 0 < wokenCount e.calls := by
      rcases hinv.2 hopen with h | h
      all_goals omega
    rcases hsome with htokens | hwoken
    · exact (space_or_popped htokens).imp_right Or.inr
    · obtain ⟨c, hc, hphase⟩ := List.countP_pos_iff.mp hwoken
      exact .inr (.inl ⟨c, hc, phase_of_isWoken hphase⟩)

/-- Two publishers fail to push and are held up before they wait.  Two frames
are popped, and the second signal is lost.  One publisher receives the token
and pushes; the other one waits. -/
def lostSignal : List EndpointEvent :=
  [.register, .call (numbered 1) false, .ofCall 0 .attempt, .ofCall 0 .signal,
    .call (numbered 2) false, .ofCall 1 .attempt, .ofCall 1 .signal,
    .call (numbered 3) false, .ofCall 2 .attempt,
    .call (numbered 4) false, .ofCall 3 .attempt,
    .takeNotify, .pop, .signalSpace none, .receive, .count,
    .pop, .signalSpace none,
    .ofCall 2 .takeSpace, .ofCall 3 .park, .ofCall 2 .attempt,
    .ofCall 2 .signal]

/-- A publisher waits beside a free slot, and no token is on its way. -/
theorem publisher_waits_beside_room : ∃ e : Endpoint, e.Reachable (withBuffer 2 block (by decide)) ∧
      e.sub.closed = false ∧ (∃ c ∈ e.calls, c.phase = .waiting) ∧
      e.sub.queue.len < e.sub.queue.capacity ∧ e.space = false ∧
      (∀ c ∈ e.calls, c.phase ≠ .woken) ∧ e.run = .sending := by
  refine ⟨_, ⟨0, lostSignal, rfl⟩, rfl, ?_, ?_, rfl, ?_, rfl⟩
  · decide
  · decide
  · decide

/-- A publisher is woken for each of the two frames that are popped. -/
def keptSignals : List EndpointEvent :=
  [.register, .call (numbered 1) false, .ofCall 0 .attempt, .ofCall 0 .signal,
    .call (numbered 2) false, .ofCall 1 .attempt, .ofCall 1 .signal,
    .call (numbered 3) false, .ofCall 2 .attempt, .ofCall 2 .park,
    .call (numbered 4) false, .ofCall 3 .attempt, .ofCall 3 .park,
    .takeNotify, .pop, .signalSpace (some 2)]

theorem waits_for_capacity_keptSignals :
    ∃ e : Endpoint, e.Reachable (withBuffer 2 block (by decide)) ∧
      (∃ c ∈ e.calls, c.phase = .waiting) ∧
      e.sub.queue.len < e.sub.queue.capacity ∧
      (e.sub.queue.len = e.sub.queue.capacity ∨ e.space = true ∨
        (∃ c ∈ e.calls, c.phase = .woken) ∨ e.run = .popped) := by
  have hrun : Machine.run step (new 0 (withBuffer 2 block (by decide))) keptSignals = some _ := rfl
  refine ⟨_, ⟨0, keptSignals, hrun⟩, by decide, by decide, ?_⟩
  exact waits_for_capacity ⟨by decide, by decide, by decide⟩ hrun (by decide)
    rfl (by decide)

end Endpoint

end GoWarp.StreamBus
