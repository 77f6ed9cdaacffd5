import GoWarp.SyncBus.Bus

/-!
# The batcher of the Redis bus

`Publish` marks its key, sends a request to the batcher and waits for the
answer or for the end of its context.  The batcher takes requests until it has
ten of them or the ticker fires, makes a payload with one entry for each key,
and publishes it, a second time after it has connected again.  Then it answers
every request of the batch.

No request is answered twice, so the batcher never waits for the room to answer
in.  A call that is answered without an error has its key in a payload that
Redis has got since the call has marked the key.  When the bus is closed, the
batcher returns and leaves the requests in its channel without an answer.
-/

namespace GoWarp.SyncBus

open Support
open Function (update update_of_ne update_self)

/-! ## Payloads -/

/-- `publishReq`; its `resp` channel is named by the call that has made it. -/
structure PublishReq where
  id : ℕ
  key : Key
  opts : PublishOptions

/-- `BatchPayload`. -/
structure BatchPayload where
  nonce : ℕ
  keys : List Key
  regions : List String
  vectors : List (String → Option UInt64)
  scopes : List Scope

/-- The requests of a batch with a key that has not been seen. -/
def uniqueBatch : List Key → List PublishReq → List PublishReq
  | _, [] => []
  | seen, req :: batch =>
    if req.key ∈ seen then uniqueBatch seen batch
    else req :: uniqueBatch (req.key :: seen) batch

/-- The payload that `flush` makes of a batch. -/
def BatchPayload.ofBatch (nonce : ℕ) (batch : List PublishReq) : BatchPayload :=
  let unique := uniqueBatch [] batch
  ⟨nonce, unique.map (·.key), unique.map (·.opts.region),
    unique.map (·.opts.vectorClock), unique.map (·.opts.scope)⟩

/-- A key that has not been seen is kept once. -/
theorem count_uniqueBatch (key : Key) (seen : List Key) (batch : List PublishReq) :
    ((uniqueBatch seen batch).map (·.key)).count key =
      if key ∈ seen then 0 else min 1 ((batch.map (·.key)).count key) := by
  induction batch generalizing seen with
  | nil => simp [uniqueBatch]
  | cons req batch ih =>
    rw [uniqueBatch]
    by_cases hkey : req.key = key
    · subst hkey
      split
      next hseen => rw [ih, if_pos hseen]
      next hseen => simp [ih, hseen]
    · split <;> simp [ih, hkey, Ne.symm hkey]

theorem count_keys_ofBatch {batch : List PublishReq} {req : PublishReq} (h : req ∈ batch)
    (nonce : ℕ) : (BatchPayload.ofBatch nonce batch).keys.count req.key = 1 := by
  have hpos : 0 < (batch.map (·.key)).count req.key :=
    List.count_pos_iff.mpr (List.mem_map_of_mem h)
  have hcount := count_uniqueBatch req.key [] batch
  rw [if_neg List.not_mem_nil, Nat.min_eq_left hpos] at hcount
  exact hcount

/-! ## The batcher and its callers -/

/-- An error of a context or of the client. -/
inductive RedisErr where
  | timeout
  | canceled
  | client
deriving DecidableEq

/-- Where a call of `Publish` stands.  A call that has found the mark of its
key is `merged`. -/
inductive PublishPhase where
  | idle
  | sending (key : Key) (opts : PublishOptions)
  | waiting (key : Key)
  | merged
  | returned (key : Key) (err : Option RedisErr)

/-- The call has not handed over its request. -/
def PublishPhase.early : PublishPhase → Bool
  | .idle | .sending .. => true
  | _ => false

/-- Where `runBatcher` is.  A `flush` is `last` if it is the one before the
batcher returns. -/
inductive BatcherPlace where
  | select
  | publish (last : Bool) (p : BatchPayload)
  | reconnect (last : Bool) (p : BatchPayload)
  | publishAgain (last : Bool) (p : BatchPayload)
  | answer (last : Bool) (rest : List PublishReq) (err : Option RedisErr)
  | returned

/-- `RedisBus` as `Publish` and `runBatcher` see it.  `resp` holds what is in
the channels of the requests, `answered` the calls that have been answered,
`sent` what Redis has got, and `since` how much of it a call has found when it
has marked its key. -/
structure RedisBus where
  pending : Key → Bool
  published : ℕ
  publishCh : List PublishReq
  closed : Bool
  batch : List PublishReq
  place : BatcherPlace
  flushes : ℕ
  resp : ℕ → Option (Option RedisErr)
  answered : List ℕ
  sent : List BatchPayload
  since : ℕ → ℕ
  calls : ℕ → PublishPhase

inductive RedisAction where
  /-- `Publish` up to its `select`. -/
  | publish (c : ℕ) (key : Key) (opts : PublishOptions)
  | send (c : ℕ)
  /-- The context of a call is done. -/
  | cancel (c : ℕ) (err : RedisErr)
  | receive (c : ℕ)
  | take
  | tick
  | close
  | seeClosed
  /-- A publish, which may reach Redis and fail all the same. -/
  | attempt (err : Option RedisErr) (reaches : Bool)
  | reconnect (err : Option RedisErr)
  /-- The bus is closed while the batcher waits to publish again. -/
  | abandon
  | answer

namespace RedisBus

def new : RedisBus :=
  ⟨fun _ => false, 0, [], false, [], .select, 0, fun _ => none, [], [], fun _ => 0, fun _ => .idle⟩

def publish (s : RedisBus) (c : ℕ) (key : Key) (opts : PublishOptions) : RedisBus :=
  if s.pending key then
    { s with calls := update s.calls c .merged }
  else
    { s with
      pending := update s.pending key true
      since := update s.since c s.sent.length
      calls := update s.calls c (.sending key opts) }

/-- The send of a request. -/
def enqueue (s : RedisBus) (req : PublishReq) : RedisBus :=
  { s with
    publishCh := s.publishCh ++ [req]
    calls := update s.calls req.id (.waiting req.key) }

/-- `cleanup` and the return of a call. -/
def finish (s : RedisBus) (c : ℕ) (key : Key) (err : Option RedisErr) : RedisBus :=
  { s with
    pending := update s.pending key false
    published := if err = none then s.published + 1 else s.published
    calls := update s.calls c (.returned key err) }

/-- The place after a `flush`. -/
def after (last : Bool) : BatcherPlace := if last then .returned else .select

/-- `flush` up to its first publish. -/
def flush (s : RedisBus) (last : Bool) : RedisBus :=
  if s.batch = [] then { s with place := after last }
  else
    { s with
      place := .publish last (.ofBatch s.flushes s.batch)
      flushes := s.flushes + 1 }

/-- The end of a publish. -/
def attempted (s : RedisBus) (p : BatchPayload) (err : Option RedisErr)
    (reaches : Bool) (place : BatcherPlace) : RedisBus :=
  { s with
    sent := if err = none ∨ reaches then s.sent ++ [p] else s.sent
    place := place }

/-- The answer to one request of the batch. -/
def respond (s : RedisBus) (last : Bool) (req : PublishReq) (rest : List PublishReq)
    (err : Option RedisErr) : RedisBus :=
  { s with
    resp := update s.resp req.id (some err)
    answered := s.answered ++ [req.id]
    place := .answer last rest err }

def step : Machine RedisBus RedisAction
  | s, .publish c key opts =>
    match s.calls c with
    | .idle => some (s.publish c key opts)
    | _ => none
  | s, .send c =>
    match s.calls c with
    | .sending key opts =>
      if s.publishCh.length < 1000 then some (s.enqueue ⟨c, key, opts⟩) else none
    | _ => none
  | s, .cancel c err =>
    match s.calls c with
    | .sending key _ | .waiting key => some (s.finish c key (some err))
    | _ => none
  | s, .receive c =>
    match s.calls c, s.resp c with
    | .waiting key, some err =>
      some ({ s with resp := update s.resp c none }.finish c key err)
    | _, _ => none
  | s, .take =>
    match s.place, s.publishCh with
    | .select, req :: rest =>
      let s' := { s with publishCh := rest, batch := s.batch ++ [req] }
      some (if 10 ≤ s'.batch.length then s'.flush false else s')
    | _, _ => none
  | s, .tick =>
    match s.place with
    | .select => some (s.flush false)
    | _ => none
  | s, .close => if s.closed then none else some { s with closed := true }
  | s, .seeClosed =>
    match s.place, s.closed with
    | .select, true => some (s.flush true)
    | _, _ => none
  | s, .attempt err reaches =>
    match s.place with
    | .publish last p =>
      some (s.attempted p err reaches (if err = none ∨ s.closed then
        .answer last s.batch err else .reconnect last p))
    | .publishAgain last p =>
      some (s.attempted p err reaches (.answer last s.batch err))
    | _ => none
  | s, .reconnect err =>
    match s.place with
    | .reconnect last p =>
      some { s with place :=
        if err = none then .publishAgain last p else .answer last s.batch err }
    | _ => none
  | s, .abandon =>
    match s.place, s.closed with
    | .publishAgain last _, true => some { s with place := after last }
    | _, _ => none
  | s, .answer =>
    match s.place with
    | .answer last [] _ => some { s with batch := [], place := after last }
    | .answer last (req :: rest) err =>
      -- a send to a full channel would wait
      match s.resp req.id with
      | none => some (s.respond last req rest err)
      | some _ => none
    | _ => none

/-! ## Answers -/

/-- Since the call has marked its key Redis has got a payload with the key. -/
def Carries (s : RedisBus) (c : ℕ) (key : Key) : Prop :=
  ∃ p ∈ s.sent.drop (s.since c), p.keys.count key = 1

/-- The requests that have not been answered. -/
def due (s : RedisBus) : List PublishReq :=
  (match s.place with
    | .answer _ rest _ => rest
    | _ => s.batch) ++ s.publishCh

/-- What the batcher relies on. -/
def Ready (s : RedisBus) : Prop :=
  match s.place with
  | .publish _ p | .reconnect _ p | .publishAgain _ p =>
    ∀ req ∈ s.batch, p.keys.count req.key = 1
  | .answer _ rest err => err = none → ∀ req ∈ rest, s.Carries req.id req.key
  | _ => True

/-- Every request is due or answered, and not both. -/
structure Kept (s : RedisBus) : Prop where
  once : (s.answered ++ s.due.map (·.id)).Nodup
  asked : ∀ c ∈ s.answered ++ s.due.map (·.id), (s.calls c).early = false
  same : ∀ req ∈ s.due, ∀ key, s.calls req.id = .waiting key → key = req.key
  resp : ∀ c err, s.resp c = some err → c ∈ s.answered
  since : ∀ c, s.since c ≤ s.sent.length
  carried : ∀ c key, s.resp c = some none → s.calls c = .waiting key → s.Carries c key
  returned : ∀ c key, s.calls c = .returned key none → s.Carries c key
  ready : s.Ready

variable {s s' : RedisBus} {c : ℕ}

theorem kept_new : new.Kept := by constructor <;> simp [new, due, Ready]

namespace Kept

variable (h : s.Kept)
include h

/-- A step that no call takes part in. -/
theorem move (hcalls : s'.calls = s.calls) (hresp : s'.resp = s.resp)
    (hanswered : s'.answered = s.answered) (hdue : s'.due = s.due)
    (hsince : s'.since = s.since) (hsent : s.sent <+: s'.sent) (hready : s'.Ready) : s'.Kept := by
  have hcarries : ∀ c key, s.Carries c key → s'.Carries c key := by
    rintro c key ⟨p, hp, hkey⟩
    refine ⟨p, ?_, hkey⟩
    rw [hsince]
    exact (hsent.sublist.drop _).subset hp
  constructor
  · rw [hanswered, hdue]
    exact h.once
  · rw [hanswered, hdue, hcalls]
    exact h.asked
  · exact hdue ▸ hcalls ▸ h.same
  · exact hresp ▸ hanswered ▸ h.resp
  · exact fun c => hsince ▸ (h.since c).trans hsent.length_le
  · exact fun c key hc hkey => hcarries c _ (h.carried c key (hresp ▸ hc) (hcalls ▸ hkey))
  · exact fun c key hc => hcarries c _ (h.returned c key (hcalls ▸ hc))
  · exact hready

variable {resp : ℕ → Option (Option RedisErr)} {err : Option RedisErr} {req : PublishReq}

theorem early_of_due (hreq : req ∈ s.due) : (s.calls req.id).early = false :=
  h.asked _ (List.mem_append_right _ (List.mem_map_of_mem hreq))

/-- A call marks its key. -/
theorem mark (hc : (s.calls c).early = true) : Kept { s with
    since := update s.since c s.sent.length } := by
  have hsame : ∀ d, (s.calls d).early = false → update s.since c s.sent.length d = s.since d :=
    fun d hd => update_of_ne (fun heq => by simp [← heq, hd] at hc) _ _
  have hcarries : ∀ d key, (s.calls d).early = false → s.Carries d key →
      Carries { s with since := update s.since c s.sent.length } d key := by
    rintro d key hd ⟨p, hp, hkey⟩
    exact ⟨p, by simpa only [hsame d hd] using hp, hkey⟩
  refine ⟨h.once, h.asked, h.same, h.resp, fun d => ?_, fun d key hd hkey => ?_,
    fun d key hd => hcarries d key (by rw [hd]; rfl) (h.returned d key hd), ?_⟩
  · rcases eq_or_ne d c with rfl | hne
    · simp
    · simpa [hne] using h.since d
  · exact hcarries d key (by rw [hkey]; rfl) (h.carried d key hd hkey)
  · have hready := h.ready
    rw [Ready] at hready ⊢
    cases hplace : s.place with
    | answer last rest err =>
      rw [hplace] at hready
      refine fun herr req hreq => hcarries _ _ (h.early_of_due ?_) (hready herr req hreq)
      rw [due, hplace]
      exact List.mem_append_left _ hreq
    | publish | reconnect | publishAgain => simpa only [hplace] using hready
    | select | returned => trivial

/-- A call moves to a phase in which it does not wait. -/
theorem call {phase : PublishPhase} (pending : Key → Bool) (published : ℕ)
    (hresp : ∀ d err, resp d = some err → s.resp d = some err)
    (hwaiting : ∀ key, phase ≠ .waiting key)
    (hearly : (s.calls c).early = false → phase.early = false)
    (hcarried : ∀ key, phase = .returned key none → s.Carries c key) :
    Kept { s with
      pending := pending
      published := published
      resp := resp
      calls := update s.calls c phase } := by
  have hold : ∀ d key, update s.calls c phase d = .waiting key → s.calls d = .waiting key :=
    fun d key hd => (Entries.of_update hd).elim (fun hc => absurd hc.2 (hwaiting key)) (·.2)
  refine ⟨h.once, fun d hd => ?_, fun req hreq key hd => h.same req hreq key (hold _ key hd),
    fun d err hd => h.resp d err (hresp d err hd), h.since,
    fun d key hd hkey => h.carried d key (hresp d none hd) (hold d key hkey),
    fun d key hd => ?_, h.ready⟩
  · obtain rfl | hne := eq_or_ne d c
    · simpa only [update_self] using hearly (h.asked d hd)
    · simpa only [update_of_ne hne] using h.asked d hd
  · rcases Entries.of_update hd with ⟨rfl, heq⟩ | ⟨-, hd⟩
    · exact hcarried key heq
    · exact h.returned d key hd

/-- A call returns. -/
theorem finish {key : Key} (hresp : ∀ d e, resp d = some e → s.resp d = some e)
    (hcarried : err = none → s.Carries c key) :
    ({ s with resp := resp }.finish c key err).Kept := by
  refine h.call _ _ hresp (by simp) (fun _ => rfl) ?_
  rintro _ ⟨⟩
  exact hcarried rfl

theorem enqueue (hc : (s.calls req.id).early = true) : (s.enqueue req).Kept := by
  have hfresh : req.id ∉ s.answered ++ s.due.map (·.id) :=
    fun hmem => by simp [h.asked _ hmem] at hc
  have hdue : (s.enqueue req).due = s.due ++ [req] := (List.append_assoc ..).symm
  have hlist : s.answered ++ (s.enqueue req).due.map (·.id) =
      s.answered ++ s.due.map (·.id) ++ [req.id] := by
    simp [hdue]
  refine ⟨?_, fun d hd => ?_, fun r hr key hd => ?_, h.resp, h.since, fun d key hd hkey => ?_,
    fun d key hd => ?_, h.ready⟩
  · change (s.answered ++ _).Nodup
    rw [hlist]
    exact (List.perm_append_singleton _ _).nodup_iff.mpr (List.nodup_cons.mpr ⟨hfresh, h.once⟩)
  · change d ∈ s.answered ++ _ at hd
    rw [hlist, List.mem_append, List.mem_singleton] at hd
    obtain rfl | hne := eq_or_ne d req.id
    · simp [RedisBus.enqueue, PublishPhase.early]
    · simpa only [RedisBus.enqueue, update_of_ne hne] using h.asked d (hd.resolve_right hne)
  · rw [hdue, List.mem_append, List.mem_singleton] at hr
    rcases Entries.of_update hd with ⟨heq, ⟨⟩⟩ | ⟨hne, hd⟩
    · rw [hr.resolve_left fun hmem => hfresh (heq ▸ List.mem_append_right _
        (List.mem_map_of_mem hmem))]
    · exact h.same r (hr.resolve_right fun heq => hne (heq ▸ rfl)) key hd
  · rcases Entries.of_update hkey with ⟨rfl, -⟩ | ⟨-, hkey⟩
    · exact absurd (List.mem_append_left _ (h.resp _ none hd)) hfresh
    · exact h.carried d key hd hkey
  · rcases Entries.of_update hd with ⟨-, ⟨⟩⟩ | ⟨-, hd⟩
    exact h.returned d key hd

theorem respond {last : Bool} {rest : List PublishReq}
    (hplace : s.place = .answer last (req :: rest) err) :
    (s.respond last req rest err).Kept := by
  have hdue : s.due = req :: rest ++ s.publishCh := by rw [due, hplace]
  have hready := h.ready
  rw [Ready, hplace] at hready
  have hlist : s.answered ++ s.due.map (·.id) =
      s.answered ++ [req.id] ++ (rest ++ s.publishCh).map (·.id) := by
    simp [hdue]
  refine ⟨hlist ▸ h.once, fun d hd => h.asked d (hlist ▸ hd),
    fun r hr => h.same r (hdue ▸ List.mem_cons_of_mem _ hr), fun d e hd => ?_, h.since,
    fun d key hd hkey => ?_, h.returned, fun herr r hr => hready herr r (List.mem_cons_of_mem _ hr)⟩
  · rcases Entries.of_update hd with ⟨rfl, -⟩ | ⟨-, hd⟩
    · exact List.mem_append_right _ (List.mem_singleton_self _)
    · exact List.mem_append_left _ (h.resp d e hd)
  · rcases Entries.of_update hd with ⟨rfl, heq⟩ | ⟨-, hd⟩
    · obtain rfl := h.same req (hdue ▸ List.mem_cons_self) key hkey
      exact hready (Option.some.inj heq) _ List.mem_cons_self
    · exact h.carried d key hd hkey

/-- The batcher is done with a batch. -/
theorem rest {batch : List PublishReq} (last : Bool) (hdue : s.due = batch ++ s.publishCh) :
    Kept { s with batch := batch, place := after last } := by
  refine h.move rfl rfl rfl ?_ rfl List.prefix_rfl ?_
  · rw [hdue]
    cases last <;> rfl
  · cases last <;> trivial

theorem flush (hplace : s.place = .select) (last : Bool) : (s.flush last).Kept := by
  rw [RedisBus.flush]
  split
  · exact h.rest last (by rw [due, hplace])
  · refine h.move rfl rfl rfl ?_ rfl List.prefix_rfl fun req hreq => count_keys_ofBatch hreq _
    simp [due, hplace]

/-- A publish ends in an answer to the whole batch, or in a reconnection. -/
theorem attempted {p : BatchPayload} {place : BatcherPlace} (last : Bool)
    (hdue : s.due = s.batch ++ s.publishCh)
    (hkeys : ∀ req ∈ s.batch, p.keys.count req.key = 1) (reaches : Bool)
    (hplace : place = .answer last s.batch err ∨ place = .reconnect last p) :
    (s.attempted p err reaches place).Kept := by
  have hsent : s.sent <+: (s.attempted p err reaches place).sent := by
    rw [RedisBus.attempted]
    split
    · exact List.prefix_append _ _
    · exact List.prefix_rfl
  rcases hplace with rfl | rfl
  · refine h.move rfl rfl rfl hdue.symm rfl hsent fun herr req hreq => ⟨p, ?_, hkeys req hreq⟩
    simp [RedisBus.attempted, herr, List.drop_append_of_le_length (h.since req.id)]
  · exact h.move rfl rfl rfl hdue.symm rfl hsent hkeys

theorem step {a : RedisAction} : step s a = some s' → s'.Kept := by
  have hready := h.ready
  rw [Ready] at hready
  fun_cases RedisBus.step s a <;> rintro ⟨⟩
  next c _ _ hc =>
    rw [RedisBus.publish]
    split
    · exact h.call s.pending s.published (fun _ _ hd => hd) (by simp) (fun _ => rfl) (by simp)
    · have hmark := h.mark (c := c) (by rw [hc]; rfl)
      exact hmark.call _ s.published (fun _ _ hd => hd) (by simp)
        (by simp [hc, PublishPhase.early]) (by simp)
  next hc _ => exact h.enqueue (by simp [hc, PublishPhase.early])
  next => exact h.finish (fun _ _ hd => hd) (by simp)
  next => exact h.finish (fun _ _ hd => hd) (by simp)
  next c key err hresp hc =>
    refine h.finish (fun d e hd => ?_) fun herr => h.carried c key (herr ▸ hresp) hc
    rcases Entries.of_update hd with ⟨-, heq⟩ | ⟨-, hd⟩
    · cases heq
    · exact hd
  next req rest hch hplace taken =>
    have hmoved : taken.Kept := by
      refine h.move rfl rfl rfl ?_ rfl List.prefix_rfl (by simp [Ready, taken, hplace])
      simp [due, taken, hplace, hch]
    split
    · exact hmoved.flush hplace false
    · exact hmoved
  next hplace => exact h.flush hplace false
  next => exact h.move rfl rfl rfl rfl rfl List.prefix_rfl h.ready
  next _ hplace => exact h.flush hplace true
  next last p hplace =>
    rw [hplace] at hready
    refine h.attempted last (by simp [due, hplace]) hready _ ?_
    split
    · exact .inl rfl
    · exact .inr rfl
  next last p hplace =>
    rw [hplace] at hready
    exact h.attempted last (by simp [due, hplace]) hready _ (.inl rfl)
  next hplace =>
    rw [hplace] at hready
    refine h.move rfl rfl rfl ?_ rfl List.prefix_rfl ?_
    · split <;> simp [due, hplace]
    · split
      · exact hready
      next herr => exact fun hnone => absurd hnone herr
  next last _ _ hplace => exact h.rest last (by simp [due, hplace])
  next last _ hplace => exact h.rest last (by simp [due, hplace])
  next hplace _ => exact h.respond hplace

theorem not_answered (hreq : req ∈ s.due) : req.id ∉ s.answered :=
  fun hmem => (List.nodup_append.mp h.once).2.2 _ hmem _ (List.mem_map_of_mem hreq) rfl

theorem resp_of_due (hreq : req ∈ s.due) : s.resp req.id = none :=
  Option.eq_none_iff_forall_ne_some.mpr fun err hresp => h.not_answered hreq (h.resp _ err hresp)

end Kept

theorem kept_of_run {as : List RedisAction} (hrun : step.run new as = some s) : s.Kept :=
  step.run_invariant (fun _ _ _ h hstep => h.step hstep) hrun kept_new

/-- No request is answered twice, and the batcher never waits for the room to
answer in. -/
theorem answers_once (as : List RedisAction) (s : RedisBus)
    (hrun : step.run new as = some s) : s.answered.Nodup ∧
      ∀ last rest err, s.place = .answer last rest err → ∃ s', step s .answer = some s' := by
  have h := kept_of_run hrun
  refine ⟨(List.nodup_append.mp h.once).1, fun last rest err hplace => ?_⟩
  rcases rest with _ | ⟨req, rest⟩
  · exact ⟨_, by rw [step, hplace]⟩
  · have hdue : s.due = req :: rest ++ s.publishCh := by rw [due, hplace]
    have hfree := h.resp_of_due (hdue ▸ List.mem_cons_self : req ∈ s.due)
    rw [step, hplace]
    simp only [hfree]
    exact ⟨_, rfl⟩

/-- A call that is answered without an error has its key, once, in a payload
that Redis has got since the call has marked the key. -/
theorem carried_of_returned (as : List RedisAction) (s : RedisBus)
    (hrun : step.run new as = some s) (c : ℕ) (key : Key)
    (hc : s.calls c = .returned key none) :
    ∃ p ∈ s.sent.drop (s.since c), p.keys.count key = 1 :=
  (kept_of_run hrun).returned c key hc

/-- The bus is closed before the batcher has taken the request of a call. -/
def closeFirst : List RedisAction :=
  [.publish 0 "a" .zero, .send 0, .take, .publish 1 "b" .zero, .send 1, .close, .seeClosed,
    .attempt none true, .answer, .answer, .receive 0]

theorem answers_once_closeFirst : ∃ s, step.run new closeFirst = some s ∧
    s.answered.Nodup :=
  ⟨_, rfl, (answers_once closeFirst _ rfl).1⟩

/-- Two calls for a key, one after the other. -/
def publishTwice : List RedisAction :=
  [.publish 0 "a" .zero, .send 0, .take, .tick, .attempt none true, .answer, .answer, .receive 0,
    .publish 1 "a" .zero, .send 1, .take, .tick, .attempt none true, .answer, .answer, .receive 1]

theorem carried_of_returned_publishTwice : ∃ s, step.run new publishTwice = some s ∧
    s.since 1 = 1 ∧ ∃ p ∈ s.sent.drop (s.since 1), p.keys.count "a" = 1 :=
  ⟨_, rfl, rfl, carried_of_returned publishTwice _ rfl 1 "a" rfl⟩

end RedisBus

end GoWarp.SyncBus
