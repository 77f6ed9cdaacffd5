import GoWarp.StreamBus.Conservation
import Mathlib.Data.List.Nodup

/-!
# The fan-out of a published frame

`Publish` enqueues the frame to one target after the other, in the order in
which it iterates over a map, and returns at the first error of the context.
Everything else that happens to the targets meanwhile is arbitrary: deliveries,
other publishers, subscriptions that are closed.

A target is served if this `Publish` has put the frame into its queue or has
dropped it there, where it is counted.  When the context is cancelled while
`Publish` waits on one target, the targets that it has not come to yet are
neither served nor told.
-/

namespace GoWarp.StreamBus

open Support
open List (append_nil map_append mem_append mem_append_left mem_map mem_singleton)
open Option (map_eq_some_iff mem_unique toList_none)
open Function (update update_of_ne update_self)

/-- The call returns nil. -/
def EnqueueCall.Accepted (c : EnqueueCall) : Prop :=
  c.phase = .signalling ∨ c.phase = .returned none

namespace Endpoint

variable {options : ValidOptions} {e e' : Endpoint}

/-- The call has put the frame into the queue or has dropped it. -/
def Records (e : Endpoint) (i : ℕ) (frame : Frame) : Prop :=
  (some i, frame) ∈ e.ledger.entered ∨ (i, frame) ∈ e.ledger.dropped

instance (e : Endpoint) (i : ℕ) (frame : Frame) : Decidable (e.Records i frame) :=
  inferInstanceAs (Decidable (_ ∨ _))

/-- The ledger has a record of exactly the calls that return nil, and a call
finds the subscription done only when it is closed. -/
structure Recorded (e : Endpoint) : Prop where
  accepted : ∀ i c, e.calls[i]? = some c → c.Accepted → e.Records i c.frame
  recorded : ∀ i f, e.Records i f → ∃ c, e.calls[i]? = some c ∧ c.Accepted
  done : ∀ (i : ℕ) (c : EnqueueCall), e.calls[i]? = some c →
    c.phase = .returned (some .subscriptionDone) → e.sub.closed = true
  doneClosed : e.doneClosed = true → e.sub.closed = true

namespace Recorded

theorem new (id : ℕ) (options : ValidOptions) : (Endpoint.new id options).Recorded where
  accepted := by rintro i c ⟨⟩
  recorded i f h := by rcases h with h | h <;> cases h
  done := by rintro i c ⟨⟩
  doneClosed := by rintro ⟨⟩

variable (h : e.Recorded)
include h

theorem quiet (hcalls : e'.calls = e.calls) (hledger : ∀ i f, e'.Records i f ↔ e.Records i f)
    (hclosed : e.sub.closed = true → e'.sub.closed = true)
    (hdone : e'.doneClosed = true → e'.sub.closed = true) : e'.Recorded where
  accepted i c hc haccepted := by
    rw [hledger]
    exact h.accepted i c (hcalls ▸ hc) haccepted
  recorded i f hrec := by
    rw [hcalls]
    exact h.recorded i f ((hledger i f).mp hrec)
  done i c hc hphase := hclosed (h.done i c (hcalls ▸ hc) hphase)
  doneClosed := hdone

theorem set {i : ℕ} {c c' : EnqueueCall}
    (hc : e.calls[i]? = some c) (hcalls : e'.calls = e.calls.set i c')
    (hsub : e'.sub = e.sub) (hledger : e'.ledger = e.ledger)
    (hdone : e'.doneClosed = e.doneClosed) (hframe : c'.frame = c.frame)
    (haccepted : c'.Accepted ↔ c.Accepted)
    (hreturned : c'.phase = .returned (some .subscriptionDone) →
      e.sub.closed = true) : e'.Recorded := by
  have hrec : ∀ j f, e'.Records j f ↔ e.Records j f := by
    intro j f
    rw [Records, Records, hledger]
  refine ⟨?_, ?_, ?_, ?_⟩
  · intro j d hd hacc
    rw [hrec]
    rw [hcalls] at hd
    rcases Entries.getElem?_set_cases hd with ⟨rfl, rfl⟩ | ⟨-, hd⟩
    · rw [hframe]
      exact h.accepted j c hc (haccepted.mp hacc)
    · exact h.accepted j d hd hacc
  · intro j f hj
    obtain ⟨d, hd, hacc⟩ := h.recorded j f ((hrec j f).mp hj)
    rw [hcalls]
    by_cases hij : i = j
    · subst hij
      obtain rfl := mem_unique hc hd
      exact ⟨c', Entries.getElem?_set_of_getElem? hc c', haccepted.mpr hacc⟩
    · exact ⟨d, (List.getElem?_set_ne hij).trans hd, hacc⟩
  · intro j d hd hphase
    rw [hsub]
    rw [hcalls] at hd
    rcases Entries.getElem?_set_cases hd with ⟨rfl, rfl⟩ | ⟨-, hd⟩
    · exact hreturned hphase
    · exact h.done j d hd hphase
  · rw [hdone, hsub]
    exact h.doneClosed

theorem accept {i : ℕ} {c c' : EnqueueCall} (hc : e.calls[i]? = some c) {sub : Subscription}
    (hclosed : sub.closed = e.sub.closed) (hframe : c'.frame = c.frame) (haccepted : c'.Accepted) :
    ({ e with
      sub := sub
      calls := e.calls.set i c'
      ledger := e.ledger.accept e.sub i c.frame } : Endpoint).Recorded := by
  refine ⟨?_, ?_, ?_, ?_⟩
  · intro j d hd hacc
    rcases Entries.getElem?_set_cases hd with ⟨rfl, rfl⟩ | ⟨-, hd⟩
    · rw [hframe]
      rcases Subscription.enters_or_drops e.sub c.frame with
        henters | ⟨-, hdrops⟩
      · left
        simp [Ledger.accept, henters]
      · right
        simp [Ledger.accept, hdrops]
    · refine (h.accepted j d hd hacc).imp ?_ ?_
      · exact mem_append_left _
      · exact mem_append_left _
  · intro j f hj
    by_cases hij : i = j
    · subst hij
      exact ⟨c', Entries.getElem?_set_of_getElem? hc c', haccepted⟩
    · have hold : e.Records j f := by
        refine hj.imp (fun hmem => ?_) fun hmem => ?_
        · refine (mem_append.mp hmem).resolve_right fun hnew => ?_
          obtain ⟨f', -, heq⟩ := mem_map.mp hnew
          exact hij (Option.some.inj (congrArg Prod.fst heq))
        · refine (mem_append.mp hmem).resolve_right fun hnew => ?_
          obtain ⟨f', -, heq⟩ := mem_map.mp hnew
          exact hij (congrArg Prod.fst heq)
      obtain ⟨d, hd, hacc⟩ := h.recorded j f hold
      exact ⟨d, (List.getElem?_set_ne hij).trans hd, hacc⟩
  · intro j d hd hphase
    change sub.closed = true
    rw [hclosed]
    rcases Entries.getElem?_set_cases hd with ⟨rfl, rfl⟩ | ⟨-, hd⟩
    · rcases haccepted with hacc | hacc
      all_goals simp [hacc] at hphase
    · exact h.done j d hd hphase
  · change e.doneClosed = true → sub.closed = true
    rw [hclosed]
    exact h.doneClosed

theorem call (frame : Frame) (ctxDone : Bool) : ({ e with
      calls := e.calls ++ [⟨frame, ctxDone, .trying⟩] } : Endpoint).Recorded := by
  have hcases : ∀ (i : ℕ) (c : EnqueueCall), (e.calls ++ [⟨frame, ctxDone, .trying⟩])[i]? = some c →
      e.calls[i]? = some c ∨ c.phase = .trying := by
    intro i c hc
    rw [List.getElem?_append] at hc
    split at hc
    next => exact .inl hc
    next =>
      obtain rfl := mem_singleton.mp (List.mem_of_getElem? hc)
      exact .inr rfl
  refine ⟨?_, ?_, ?_, h.doneClosed⟩
  · intro i c hc hacc
    rcases hcases i c hc with hold | hphase
    · exact h.accepted i c hold hacc
    · simp [EnqueueCall.Accepted, hphase] at hacc
  · intro i f hi
    obtain ⟨c, hc, hacc⟩ := h.recorded i f hi
    obtain ⟨hlt, -⟩ := List.getElem?_eq_some_iff.mp hc
    exact ⟨c, (List.getElem?_append_left hlt).trans hc, hacc⟩
  · intro i c hc hphase
    rcases hcases i c hc with hold | htrying
    · exact h.done i c hold hphase
    · simp [htrying] at hphase

theorem ofCall {i : ℕ} {c : EnqueueCall} {a : CallEvent}
    (hpos : 0 < e.sub.queue.capacity) (hc : e.calls[i]? = some c)
    (hmoves : CallMoves e i c a e') : e'.Recorded := by
  cases hmoves with
  | cancelParked hphase | park hphase hspace hctx hdone
  | takeSpace hphase hspace | giveUp hphase hctx | signal hphase =>
    refine h.set hc rfl rfl rfl rfl rfl ?_ (by simp)
    simp [EnqueueCall.Accepted, hphase]
  | cancel hphase =>
    refine h.set hc rfl rfl rfl rfl rfl Iff.rfl ?_
    exact h.done i c hc
  | done hphase henqueue =>
    refine h.set hc rfl rfl rfl rfl rfl ?_ fun _ => ?_
    · simp [EnqueueCall.Accepted, not_accepted_of_trying hphase]
    · exact Subscription.closed_of_enqueue_done henqueue
  | block hphase henqueue =>
    refine h.set hc rfl rfl rfl rfl rfl ?_ (by simp)
    simp [EnqueueCall.Accepted, not_accepted_of_trying hphase]
  | accept hphase sub henqueue =>
    apply h.accept hc
    · exact (Subscription.accounted_enqueue hpos henqueue).closed
    · rfl
    · change ite _ _ _ = _ ∨ ite _ _ _ = _
      split
      next => exact .inr rfl
      next => exact .inl rfl
  | seeDone hphase hdone =>
    refine h.set hc rfl rfl rfl rfl rfl ?_ fun _ => h.doneClosed hdone
    rcases hphase with hphase | hphase
    all_goals simp [EnqueueCall.Accepted, hphase]

theorem step {a : EndpointEvent} (hpos : 0 < e.sub.queue.capacity) (hmoves : Moves e a e') :
    e'.Recorded := by
  have hclosed : e.sub.closed = true → e'.sub.closed = true := by
    intro hclosed
    by_contra hopen
    have hback := hmoves.closed_mono hpos (Bool.eq_false_of_not_eq_true hopen)
    exact absurd (hclosed.symm.trans hback) (by decide)
  cases hmoves with
  | preload frames hsetup =>
    refine h.quiet rfl (fun i f => ?_) hclosed fun hdone => hclosed (h.doneClosed hdone)
    simp [Records, Ledger.preload]
  | call frame ctxDone hsetup => exact h.call frame ctxDone
  | ofCall i c a e' hc hmoves => exact h.ofCall hpos hc hmoves
  | wake i c hc hrun hphase =>
    refine h.set hc rfl rfl rfl rfl rfl ?_ (by simp)
    simp [EnqueueCall.Accepted, hphase]
  | closeDone hdone =>
    exact h.quiet rfl (fun _ _ => .rfl) id fun _ => hdone
  | _ => exact h.quiet rfl (fun _ _ => .rfl) hclosed fun hdone => hclosed (h.doneClosed hdone)

end Recorded

theorem Reachable.recorded (h : e.Reachable options) : e.Recorded :=
  h.invariant (fun id => .new id options)
    fun _ _ _ hreach he hmoves => he.step hreach.conserved.pos hmoves

theorem Moves.returned_persist {a : EndpointEvent} (h : Moves e a e') {i : ℕ}
    {c : EnqueueCall} {err : Option BusError} (hi : e.calls[i]? = some c)
    (hphase : c.phase = .returned err) :
    ∃ c', e'.calls[i]? = some c' ∧ c'.frame = c.frame ∧ c'.phase = .returned err := by
  -- only a call that has not returned goes on
  have hset : ∀ j old new, e.calls[j]? = some old → (old.phase = .returned err →
        new.frame = old.frame ∧ new.phase = .returned err) →
      ∃ c', (e.calls.set j new)[i]? = some c' ∧ c'.frame = c.frame ∧ c'.phase = .returned err := by
    intro j old new hj hnew
    by_cases hij : i = j
    · subst hij
      obtain rfl := mem_unique hj hi
      exact ⟨new, Entries.getElem?_set_of_getElem? hi new, hnew hphase⟩
    · exact ⟨c, (List.getElem?_set_ne (.symm hij)).trans hi, rfl, hphase⟩
  cases h with
  | call frame ctxDone hsetup =>
    refine ⟨c, ?_, rfl, hphase⟩
    obtain ⟨hlt, -⟩ := List.getElem?_eq_some_iff.mp hi
    exact (List.getElem?_append_left hlt).trans hi
  | ofCall j old a e' hj hmoves =>
    cases hmoves with
    | cancel hold =>
      apply hset j old _ hj
      exact fun hreturned => ⟨rfl, hreturned⟩
    | done hold | block hold | accept hold | seeDone hold =>
      apply hset j old _ hj
      intro hreturned
      simp [hreturned] at hold
    | cancelParked hold | park hold | takeSpace hold | giveUp hold
    | signal hold =>
      apply hset j old _ hj
      intro hreturned
      cases hold.symm.trans hreturned
  | wake j old hj hrun hold =>
    apply hset j old _ hj
    intro hreturned
    cases hold.symm.trans hreturned
  | _ => exact ⟨c, hi, rfl, hphase⟩

end Endpoint

/-! ## The loop of `Publish` -/

/-- `Publish` while it enqueues a frame.  `passed` are the targets it is done
with, with the numbers of its calls, and `waitedOn` is the target it was waiting
on when its context was cancelled. -/
structure FanOut where
  endpoints : ℕ → Endpoint
  frame : Frame
  ctxDone : Bool
  todo : List ℕ
  current : Option (ℕ × ℕ)
  result : Option (Option BusError)
  passed : List (ℕ × ℕ)
  waitedOn : Option ℕ

inductive FanOutEvent where
  | next
  | ofCall (a : CallEvent)
  | cancel
  | finish
  | other (id : ℕ) (a : EndpointEvent)

namespace FanOut

/-- `Publish` has picked its targets, in the order in which it iterates over
them. -/
def start (endpoints : ℕ → Endpoint) (frame : Frame) (order : List ℕ) : FanOut where
  endpoints := endpoints
  frame := frame
  ctxDone := false
  todo := order
  current := none
  result := none
  passed := []
  waitedOn := none

/-- A step at one of the subscriptions. -/
def onEndpoint (s : FanOut) (id : ℕ) (a : EndpointEvent) : Option FanOut :=
  (Endpoint.step (s.endpoints id) a).map fun e => { s with endpoints := update s.endpoints id e }

/-- The call has failed to push and has not been woken. -/
def isWaiting (e : Endpoint) (i : ℕ) : Bool :=
  match e.calls[i]? with
  | some c => c.phase = .blocked ∨ c.phase = .waiting
  | none => false

/-- The step belongs to the call that `Publish` is in. -/
def isOwn (s : FanOut) (id : ℕ) : EndpointEvent → Bool
  | .ofCall i _ => s.current = some (id, i)
  | _ => false

def step : Machine FanOut FanOutEvent := fun s a =>
  match a with
  | .next =>
    if s.result = none ∧ s.current = none then
      match s.todo with
      | [] => some { s with result := some none }
      | id :: rest =>
        (s.onEndpoint id (.call s.frame s.ctxDone)).map fun s' =>
          { s' with
            todo := rest
            current := some (id, (s.endpoints id).calls.length) }
    else
      none
  | .ofCall a =>
    if a = .cancel then none
    else s.current.bind fun call => s.onEndpoint call.1 (.ofCall call.2 a)
  | .cancel =>
    if s.ctxDone = true then none
    else
      match s.current with
      | none => some { s with ctxDone := true }
      | some (id, i) =>
        (s.onEndpoint id (.ofCall i .cancel)).map fun s' =>
          { s' with
            ctxDone := true
            waitedOn :=
              if isWaiting (s.endpoints id) i then some id else none }
  | .finish =>
    match s.result, s.current with
    | none, some (id, i) =>
      match (s.endpoints id).calls[i]?.map EnqueueCall.phase with
      | some (.returned none) | some (.returned (some .subscriptionDone)) =>
        some { s with passed := s.passed ++ [(id, i)], current := none }
      | some (.returned (some err)) =>
        some { s with result := some (some err) }
      | _ => none
    | _, _ => none
  | .other id a => if s.isOwn id a then none else s.onEndpoint id a

/-- This `Publish` has put the frame into the queue of the target, or has
dropped it there. -/
def Served (s : FanOut) (id : ℕ) : Prop :=
  ∃ i, (id, i) ∈ s.passed ++ s.current.toList ∧ (s.endpoints id).Records i s.frame

inductive Moves (s : FanOut) : FanOutEvent → FanOut → Prop where
  | complete (hresult : s.result = none) (hcurrent : s.current = none)
      (htodo : s.todo = []) : Moves s .next { s with result := some none }
  | enqueue (id : ℕ) (rest : List ℕ) (e : Endpoint) (hresult : s.result = none)
      (hcurrent : s.current = none) (htodo : s.todo = id :: rest)
      (he : Endpoint.step (s.endpoints id) (.call s.frame s.ctxDone) = some e) :
      Moves s .next { s with
        endpoints := update s.endpoints id e
        todo := rest
        current := some (id, (s.endpoints id).calls.length) }
  | ofCall (a : CallEvent) (id i : ℕ) (e : Endpoint)
      (hcurrent : s.current = some (id, i))
      (he : Endpoint.step (s.endpoints id) (.ofCall i a) = some e) :
      Moves s (.ofCall a) { s with endpoints := update s.endpoints id e }
  | cancelIdle (hcurrent : s.current = none) :
      Moves s .cancel { s with ctxDone := true }
  | cancel (id i : ℕ) (e : Endpoint) (hcurrent : s.current = some (id, i))
      (he : Endpoint.step (s.endpoints id) (.ofCall i .cancel) = some e) :
      Moves s .cancel { s with
        endpoints := update s.endpoints id e
        ctxDone := true
        waitedOn := if isWaiting (s.endpoints id) i then some id else none }
  | pass (id i : ℕ) (c : EnqueueCall) (hresult : s.result = none)
      (hcurrent : s.current = some (id, i))
      (hc : (s.endpoints id).calls[i]? = some c)
      (hphase : c.phase = .returned none ∨ c.phase = .returned (some .subscriptionDone)) :
      Moves s .finish { s with passed := s.passed ++ [(id, i)], current := none }
  | fail (id i : ℕ) (c : EnqueueCall) (err : BusError)
      (hresult : s.result = none) (hcurrent : s.current = some (id, i))
      (hc : (s.endpoints id).calls[i]? = some c)
      (hphase : c.phase = .returned (some err))
      (herr : err ≠ .subscriptionDone) :
      Moves s .finish { s with result := some (some err) }
  | other (id : ℕ) (a : EndpointEvent) (e : Endpoint)
      (he : Endpoint.step (s.endpoints id) a = some e) :
      Moves s (.other id a) { s with endpoints := update s.endpoints id e }

variable {s s' : FanOut}

theorem moves_of_step {a : FanOutEvent} (h : step s a = some s') : Moves s a s' := by
  cases a with
  | next =>
    obtain ⟨⟨hresult, hcurrent⟩, h⟩ := Option.ite_none_right_eq_some.mp h
    split at h
    next htodo =>
      cases h
      exact .complete hresult hcurrent htodo
    next id rest htodo =>
      obtain ⟨t, ht, h⟩ := map_eq_some_iff.mp h
      obtain ⟨e, he, ht⟩ := map_eq_some_iff.mp ht
      cases ht
      cases h
      exact .enqueue id rest e hresult hcurrent htodo he
  | ofCall a =>
    obtain ⟨-, h⟩ := Option.ite_none_left_eq_some.mp h
    obtain ⟨⟨id, i⟩, hcurrent, h⟩ := Option.bind_eq_some_iff.mp h
    obtain ⟨e, he, h⟩ := map_eq_some_iff.mp h
    cases h
    exact .ofCall a id i e hcurrent he
  | cancel =>
    obtain ⟨-, h⟩ := Option.ite_none_left_eq_some.mp h
    split at h
    next hcurrent =>
      cases h
      exact .cancelIdle hcurrent
    next id i hcurrent =>
      obtain ⟨t, ht, h⟩ := map_eq_some_iff.mp h
      obtain ⟨e, he, ht⟩ := map_eq_some_iff.mp ht
      cases ht
      cases h
      exact .cancel id i e hcurrent he
  | finish =>
    simp only [step] at h
    split at h
    next id i hresult hcurrent =>
      split at h
      next hphase =>
        cases h
        obtain ⟨c, hc, hphase⟩ := map_eq_some_iff.mp hphase
        exact .pass id i c hresult hcurrent hc (.inl hphase)
      next hphase =>
        cases h
        obtain ⟨c, hc, hphase⟩ := map_eq_some_iff.mp hphase
        exact .pass id i c hresult hcurrent hc (.inr hphase)
      next err herr hphase =>
        cases h
        obtain ⟨c, hc, hphase⟩ := map_eq_some_iff.mp hphase
        refine .fail id i c err hresult hcurrent hc hphase ?_
        rintro rfl
        exact herr rfl
      next => cases h
    next => cases h
  | other id a =>
    obtain ⟨-, h⟩ := Option.ite_none_left_eq_some.mp h
    obtain ⟨e, he, h⟩ := map_eq_some_iff.mp h
    cases h
    exact .other id a e he

/-! ## Targets that are served -/

/-- The targets are those that `Publish` is done with, the one it is at and the
ones it has yet to come to, and its calls are in their tables. -/
structure Sound (order : List ℕ) (s : FanOut) : Prop where
  reach : ∀ id, ∃ options, (s.endpoints id).Reachable options
  order : (s.passed ++ s.current.toList).map Prod.fst ++ s.todo = order
  passed : ∀ id i, (id, i) ∈ s.passed →
    ∃ c, (s.endpoints id).calls[i]? = some c ∧ c.frame = s.frame ∧ (c.phase = .returned none ∨
        c.phase = .returned (some .subscriptionDone))
  current : ∀ id i, s.current = some (id, i) →
    ∃ c, (s.endpoints id).calls[i]? = some c ∧ c.frame = s.frame
  completed : s.result = some none → s.current = none ∧ s.todo = []
  failed : ∀ err, s.result = some (some err) → ∃ id i c, s.current = some (id, i) ∧
      (s.endpoints id).calls[i]? = some c ∧ c.phase = .returned (some err)
  waitedOn : ∀ id, s.waitedOn = some id → id ∈ (s.passed ++ s.current.toList).map Prod.fst

namespace Sound

variable {order : List ℕ}

theorem start {endpoints : ℕ → Endpoint} (frame : Frame)
    (hreach : ∀ id, ∃ options, (endpoints id).Reachable options)
    (order : List ℕ) : (FanOut.start endpoints frame order).Sound order where
  reach := hreach
  order := rfl
  passed := by rintro id i ⟨⟩
  current := by rintro id i ⟨⟩
  completed := by rintro ⟨⟩
  failed := by rintro err ⟨⟩
  waitedOn := by rintro id ⟨⟩

theorem endpoint (h : s.Sound order) {id : ℕ} {a : EndpointEvent}
    {e : Endpoint} (he : Endpoint.step (s.endpoints id) a = some e) :
    ({ s with endpoints := update s.endpoints id e } : FanOut).Sound order := by
  have hmoves := Endpoint.moves_of_step he
  have hreturned : ∀ id' (i : ℕ) c err,
      (s.endpoints id').calls[i]? = some c → c.phase = .returned err →
      ∃ c', (update s.endpoints id e id').calls[i]? = some c' ∧
        c'.frame = c.frame ∧ c'.phase = .returned err := by
    intro id' i c err hc hphase
    by_cases hid : id' = id
    · subst hid
      rw [update_self]
      exact hmoves.returned_persist hc hphase
    · rw [update_of_ne hid]
      exact ⟨c, hc, rfl, hphase⟩
  refine ⟨?_, h.order, ?_, ?_, h.completed, ?_, h.waitedOn⟩
  · intro id'
    change ∃ options, (update s.endpoints id e id').Reachable options
    by_cases hid : id' = id
    · subst hid
      obtain ⟨options, hreach⟩ := h.reach id'
      rw [update_self]
      exact ⟨options, hreach.step he⟩
    · rw [update_of_ne hid]
      exact h.reach id'
  · intro id' i hmem
    obtain ⟨c, hc, hframe, hphase⟩ := h.passed id' i hmem
    rcases hphase with hphase | hphase
    · obtain ⟨c', hc', hframe', hphase'⟩ := hreturned id' i c _ hc hphase
      exact ⟨c', hc', hframe'.trans hframe, .inl hphase'⟩
    · obtain ⟨c', hc', hframe', hphase'⟩ := hreturned id' i c _ hc hphase
      exact ⟨c', hc', hframe'.trans hframe, .inr hphase'⟩
  · intro id' i hcurrent
    obtain ⟨c, hc, hframe⟩ := h.current id' i hcurrent
    change ∃ c, (update s.endpoints id e id').calls[i]? = some c ∧ _
    by_cases hid : id' = id
    · subst hid
      obtain ⟨c', hc', hframe'⟩ := hmoves.calls_persist hc
      rw [update_self]
      exact ⟨c', hc', hframe'.trans hframe⟩
    · rw [update_of_ne hid]
      exact ⟨c, hc, hframe⟩
  · intro err hresult
    obtain ⟨id', i, c, hcurrent, hc, hphase⟩ := h.failed err hresult
    obtain ⟨c', hc', -, hphase'⟩ := hreturned id' i c _ hc hphase
    exact ⟨id', i, c', hcurrent, hc', hphase'⟩

theorem step (h : s.Sound order) {a : FanOutEvent} (hmoves : Moves s a s') : s'.Sound order := by
  cases hmoves with
  | complete hresult hcurrent htodo =>
    refine ⟨h.reach, h.order, h.passed, h.current, fun _ => ⟨hcurrent, htodo⟩, ?_, h.waitedOn⟩
    rintro err ⟨⟩
  | enqueue id rest e hresult hcurrent htodo he =>
    have hs := h.endpoint he
    refine ⟨hs.reach, ?_, hs.passed, ?_, ?_, ?_, ?_⟩
    · have horder := h.order
      rw [hcurrent, htodo, toList_none, append_nil] at horder
      rw [← horder]
      simp
    · intro id' i hnew
      cases hnew
      dsimp only
      rw [update_self]
      cases Endpoint.moves_of_step he
      exact ⟨_, List.getElem?_concat_length, rfl⟩
    · intro hnone
      cases hresult.symm.trans hnone
    · intro err hsome
      cases hresult.symm.trans hsome
    · intro id' hid'
      have hmem := h.waitedOn id' hid'
      rw [hcurrent, toList_none, append_nil] at hmem
      rw [map_append]
      exact mem_append_left _ hmem
  | ofCall a id i e hcurrent he => exact h.endpoint he
  | cancelIdle hcurrent =>
    exact ⟨h.reach, h.order, h.passed, h.current, h.completed, h.failed, h.waitedOn⟩
  | cancel id i e hcurrent he =>
    have hs := h.endpoint he
    refine ⟨hs.reach, hs.order, hs.passed, hs.current, hs.completed, hs.failed, ?_⟩
    intro id' hid'
    obtain rfl : id = id' := by
      change (if _ then some id else none) = some id' at hid'
      split at hid'
      next => exact Option.some.inj hid'
      next => cases hid'
    rw [map_append]
    apply List.mem_append_right
    rw [hcurrent]
    exact List.mem_singleton_self _
  | pass id i c hresult hcurrent hc hphase =>
    have hsame : (s.passed ++ [(id, i)]) ++ (none : Option (ℕ × ℕ)).toList =
        s.passed ++ s.current.toList := by
      rw [hcurrent, toList_none, append_nil]
      rfl
    refine ⟨h.reach, ?_, ?_, ?_, ?_, ?_, ?_⟩
    · rw [hsame]
      exact h.order
    · intro id' i' hmem
      rcases mem_append.mp hmem with hmem | hmem
      · exact h.passed id' i' hmem
      · cases mem_singleton.mp hmem
        obtain ⟨c', hc', hframe⟩ := h.current id i hcurrent
        obtain rfl := mem_unique hc hc'
        exact ⟨c, hc, hframe, hphase⟩
    · rintro id' i' ⟨⟩
    · intro hnone
      cases hresult.symm.trans hnone
    · intro err hsome
      cases hresult.symm.trans hsome
    · rw [hsame]
      exact h.waitedOn
  | fail id i c err hresult hcurrent hc hphase herr =>
    refine ⟨h.reach, h.order, h.passed, h.current, ?_, ?_, h.waitedOn⟩
    · rintro ⟨⟩
    · intro err' herr'
      obtain rfl := Option.some.inj (Option.some.inj herr')
      exact ⟨id, i, c, hcurrent, hc, hphase⟩
  | other id a e he => exact h.endpoint he

end Sound

theorem sound_run {order : List ℕ} {endpoints : ℕ → Endpoint} {frame : Frame}
    {events : List FanOutEvent} (hreach : ∀ id, ∃ options, (endpoints id).Reachable options)
    (hrun : Machine.run step (start endpoints frame order) events = some s) :
    s.Sound order := by
  refine Machine.run_invariant step (I := fun s => s.Sound order) ?_ hrun
    (.start frame hreach order)
  intro s a s' hs h
  exact hs.step (moves_of_step h)

section Served

variable {order : List ℕ} {id i : ℕ}

theorem served_of_passed (h : s.Sound order) (hmem : (id, i) ∈ s.passed)
    (hopen : (s.endpoints id).sub.closed = false) : s.Served id := by
  obtain ⟨options, hreach⟩ := h.reach id
  obtain ⟨c, hc, hframe, hphase⟩ := h.passed id i hmem
  rcases hphase with hphase | hphase
  · refine ⟨i, mem_append_left _ hmem, ?_⟩
    rw [← hframe]
    exact hreach.recorded.accepted i c hc (.inr hphase)
  · have hclosed := hreach.recorded.done i c hc hphase
    exact absurd (hclosed.symm.trans hopen) (by decide)

theorem not_served_of_failed (h : s.Sound order) (hnodup : order.Nodup)
    {err : BusError} (hcurrent : s.current = some (id, i))
    (hresult : s.result = some (some err)) : ¬s.Served id := by
  rintro ⟨j, hmem, hrec⟩
  obtain ⟨id', i', c, hcurrent', hc, hphase⟩ := h.failed err hresult
  obtain ⟨rfl, rfl⟩ : id = id' ∧ i = i' := by simpa using hcurrent.symm.trans hcurrent'
  have hj : j = i := by
    rw [hcurrent] at hmem
    rcases mem_append.mp hmem with hpassed | hself
    · -- the target is not among those that `Publish` is done with
      have horder := h.order
      rw [hcurrent, map_append] at horder
      rw [← horder] at hnodup
      have hdisjoint := List.disjoint_of_nodup_append hnodup.of_append_left
      exact absurd (List.mem_map_of_mem hpassed)
        fun hmem => hdisjoint hmem (List.mem_singleton_self _)
    · exact (Prod.mk.inj (mem_singleton.mp hself)).2
  subst hj
  obtain ⟨options, hreach⟩ := h.reach id
  obtain ⟨c', hc', hacc⟩ := hreach.recorded.recorded j s.frame hrec
  obtain rfl := mem_unique hc hc'
  rcases hacc with hacc | hacc
  all_goals cases hacc.symm.trans hphase

theorem not_served_of_todo (h : s.Sound order) (hnodup : order.Nodup)
    (hmem : id ∈ s.todo) : ¬s.Served id ∧ s.waitedOn ≠ some id := by
  rw [← h.order] at hnodup
  have hdisjoint := List.disjoint_of_nodup_append hnodup
  constructor
  · rintro ⟨i, hcall, -⟩
    exact hdisjoint (List.mem_map_of_mem hcall) hmem
  · intro hwaited
    exact hdisjoint (h.waitedOn id hwaited) hmem

end Served

/-- When `Publish` returns, every target that is still open has been served, or
is the one that `Publish` was waiting on when its context was cancelled, exactly
if `Publish` has gone through all targets, or has failed at a target that is
excused or closed and has left out closed targets only. -/
theorem no_hole_iff {order : List ℕ} {endpoints : ℕ → Endpoint} {frame : Frame}
    {events : List FanOutEvent} (hnodup : order.Nodup)
    (hreach : ∀ id, ∃ options, (endpoints id).Reachable options)
    (hrun : Machine.run step (start endpoints frame order) events = some s)
    {err : Option BusError} (hresult : s.result = some err) :
    (∀ id ∈ order, (s.endpoints id).sub.closed = false → s.Served id ∨ s.waitedOn = some id) ↔
    err = none ∨ ∃ id i, s.current = some (id, i) ∧
      ((s.endpoints id).sub.closed = true ∨ s.waitedOn = some id) ∧
      ∀ id' ∈ s.todo, (s.endpoints id').sub.closed = true := by
  have hs := sound_run hreach hrun
  constructor
  · intro hall
    rcases err with _ | err
    · exact .inl rfl
    · right
      obtain ⟨id, i, c, hcurrent, -, -⟩ := hs.failed err hresult
      refine ⟨id, i, hcurrent, ?_, ?_⟩
      · by_contra hhole
        rw [not_or] at hhole
        have hmem : id ∈ order := by
          rw [← hs.order, hcurrent]
          simp
        rcases hall id hmem (Bool.eq_false_of_not_eq_true hhole.1) with
          hserved | hwaited
        · exact not_served_of_failed hs hnodup hcurrent hresult hserved
        · exact hhole.2 hwaited
      · intro id' hid'
        by_contra hopen
        obtain ⟨hserved, hwaited⟩ := not_served_of_todo hs hnodup hid'
        have hmem : id' ∈ order := by
          rw [← hs.order]
          exact List.mem_append_right _ hid'
        rcases hall id' hmem (Bool.eq_false_of_not_eq_true hopen) with h | h
        · exact hserved h
        · exact hwaited h
  · intro hcases id hid hopen
    rw [← hs.order, map_append, List.append_assoc, mem_append, mem_append] at hid
    rcases hid with hpassed | hcurrent | htodo
    · obtain ⟨⟨id', i⟩, hmem, rfl⟩ := mem_map.mp hpassed
      exact .inl (served_of_passed hs hmem hopen)
    · obtain ⟨⟨id', i⟩, hmem, rfl⟩ := mem_map.mp hcurrent
      have hat : s.current = some (id', i) := Option.mem_toList.mp hmem
      rcases hcases with rfl | ⟨id₁, i₁, hcurrent₁, hexcused, -⟩
      · cases hat.symm.trans (hs.completed hresult).1
      · obtain ⟨rfl, rfl⟩ : id' = id₁ ∧ i = i₁ := by
          simpa using hat.symm.trans hcurrent₁
        right
        refine hexcused.resolve_left fun hclosed => ?_
        exact absurd (hclosed.symm.trans hopen) (by decide)
    · rcases hcases with rfl | ⟨-, -, -, -, hclosed⟩
      · rw [(hs.completed hresult).2] at htodo
        cases htodo
      · exact absurd ((hclosed id htodo).symm.trans hopen) (by decide)

/-! ## Two targets -/

/-- A subscription with a queue of one frame. -/
def oneSlot : ValidOptions := Endpoint.withBuffer 1 block (by decide)

/-- What has happened to the subscriptions before. -/
def crowding (id : ℕ) : List EndpointEvent :=
  if id = 1 then
    [.register, .call (Endpoint.numbered 1) false, .ofCall 0 .attempt]
  else
    [.register]

/-- The first subscription has no room, the others have. -/
def crowded (id : ℕ) : Endpoint :=
  (Machine.run Endpoint.step (Endpoint.new id oneSlot) (crowding id)).getD (Endpoint.new id oneSlot)

theorem reachable_crowded (id : ℕ) : (crowded id).Reachable oneSlot := by
  refine ⟨id, crowding id, ?_⟩
  rw [crowded, crowding]
  split
  next => rfl
  next => rfl

/-- `Publish` waits on the first target when its context is cancelled, and
returns without a word to the second one, which is open and has room. -/
theorem hole_behind_waiting_target :
    ∃ s, Machine.run step (start crowded (Endpoint.numbered 2) [1, 2])
        [.next, .ofCall .attempt, .ofCall .park, .cancel, .finish] = some s ∧
      s.result = some (some .context) ∧ s.waitedOn = some 1 ∧
      (s.endpoints 2).sub.closed = false ∧
      (s.endpoints 2).sub.queue.len < (s.endpoints 2).sub.queue.capacity ∧
      ¬s.Served 2 ∧ (s.endpoints 2).sub.dropped = 0 := by
  refine ⟨_, rfl, rfl, rfl, rfl, by decide, ?_, rfl⟩
  rintro ⟨i, hmem, -⟩
  rcases mem_singleton.mp hmem with ⟨⟩

/-- The other way round there is no hole. -/
theorem no_hole_behind_room : ∃ s, Machine.run step (start crowded (Endpoint.numbered 2) [2, 1])
        [.next, .ofCall .attempt, .ofCall .signal, .finish, .next,
          .ofCall .attempt, .ofCall .park, .cancel, .finish] = some s ∧
      s.result = some (some .context) ∧
      ∀ id ∈ [2, 1], (s.endpoints id).sub.closed = false → s.Served id ∨ s.waitedOn = some id := by
  have hrun : Machine.run step (start crowded (Endpoint.numbered 2) [2, 1])
    [.next, .ofCall .attempt, .ofCall .signal, .finish, .next,
      .ofCall .attempt, .ofCall .park, .cancel, .finish] = some _ := rfl
  refine ⟨_, hrun, rfl, ?_⟩
  refine (no_hole_iff (by decide) (fun id => ⟨oneSlot, reachable_crowded id⟩)
    hrun rfl).mpr (.inr ⟨1, 1, rfl, .inr rfl, ?_⟩)
  rintro id ⟨⟩

end FanOut

end GoWarp.StreamBus
