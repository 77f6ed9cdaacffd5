import GoWarp.SyncBus.Channels

/-!
# Events on their way

An event is on its way to a channel while a publish that has not been
cancelled still has to reach the channel, and while it is buffered.  It stays
on its way until it is received, provided the publish is not merged.

The mark of a key belongs to a call that has set it and not cleared it yet,
so a publish that is alone is not merged.
-/

namespace GoWarp.SyncBus

open Support

/-- The call has set the mark and not cleared it. -/
def Phase.Inside : Phase → Prop
  | .marked => True
  | .sending _ => True
  | .clearing _ => True
  | _ => False

/-- The call has returned. -/
def Phase.Done : Phase → Prop
  | .returned _ => True
  | _ => False

instance : DecidablePred Phase.Done
  | .returned _ => isTrue trivial
  | .called => isFalse id
  | .checked => isFalse id
  | .marked => isFalse id
  | .sending _ => isFalse id
  | .clearing _ => isFalse id

theorem Phase.Inside.not_done {phase : Phase} (h : phase.Inside) : ¬phase.Done := by
  cases phase <;> simp_all [Phase.Inside, Phase.Done]

variable {call : Call} {r : Bus × Call} {b : Bus} {i : ℕ}

theorem Turn.not_done (h : Turn b i call r) : ¬call.phase.Done := by
  cases h <;> simp_all [Phase.Done]

theorem Turn.canceled (h : Turn b i call r) : r.2.canceled = call.canceled := by cases h <;> rfl

theorem Turn.buffer_of_topic_ne
    (h : Turn b i call r) (hbus : b.Sound) (hsends : call.Sends b i) {ch : ℕ}
    (htopic : (b.chans ch).topic ≠ call.key) :
    (r.1.chans ch).buffer = (b.chans ch).buffer := by
  cases h with
  | sent c rest hphase =>
    have hmem := (hsends _ hphase).2.subset List.mem_cons_self
    have hne : ch ≠ c := by
      rintro rfl
      exact htopic (hbus.opened _ ch hmem).2.2
    simp [hne]
  | _ => rfl

namespace System

/-- Every mark belongs to a call for its key that has set it. -/
def Marked (s : System) : Prop :=
  ∀ key i, s.bus.pending key = some i →
    ∃ call, s.calls i = some call ∧ call.key = key ∧ call.phase.Inside

variable {s s' : System} {i : ℕ} {a : Action}

theorem Marked.put (h : s.Marked)
    (hcall : s.calls i = some call) (hpending : r.1.pending = s.bus.pending)
    (hkey : r.2.key = call.key)
    (hinside : call.phase.Inside → r.2.phase.Inside) : (s.put i r).Marked := by
  intro key j hj
  obtain ⟨other, hother, hk, hin⟩ := h key j (hpending ▸ hj)
  by_cases hji : j = i
  · subst hji
    obtain rfl := Option.mem_unique hcall hother
    exact ⟨r.2, calls_put_self s j r, hkey.trans hk, hinside hin⟩
  · exact ⟨other, (calls_put_of_ne s hji r).trans hother, hk, hin⟩

theorem Marked.other {i j : ℕ} (h : s.Marked) (hcall : s.calls i = some call) {key : Key}
    (hj : s.bus.pending key = some j) (hk : key ≠ call.key) :
    ∃ other, (s.put i r).calls j = some other ∧ other.key = key ∧
      other.phase.Inside := by
  obtain ⟨other, hother, hkey, hin⟩ := h key j hj
  have hji : j ≠ i := by
    rintro rfl
    obtain rfl := Option.mem_unique hcall hother
    exact hk hkey.symm
  exact ⟨other, (calls_put_of_ne s hji r).trans hother, hkey, hin⟩

theorem Marked.turn (h : s.Marked) (hcall : s.calls i = some call) (hturn : Turn s.bus i call r) :
    (s.put i r).Marked := by
  cases hturn with
  | rejected hphase | checked hphase | merged j hphase =>
    exact h.put hcall rfl rfl (by simp [hphase, Phase.Inside])
  | marked hphase hpending =>
    intro key j hj
    rcases Entries.update_cases hj with ⟨rfl, rfl⟩ | ⟨hk, hj⟩
    · exact ⟨_, calls_put_self s j _, rfl, trivial⟩
    · exact h.other hcall hj hk
  | cleared err hphase =>
    intro key j hj
    change Function.update s.bus.pending call.key none key = some j at hj
    by_cases hk : key = call.key
    · rw [hk, Function.update_self] at hj
      cases hj
    · rw [Function.update_of_ne hk] at hj
      exact h.other hcall hj hk
  | _ => exact h.put hcall rfl rfl fun _ => trivial

theorem Marked.of_bus (h : s.Marked) {b' : Bus} (hpending : b'.pending = s.bus.pending) :
    ({ s with bus := b' } : System).Marked := by
  intro key j hj
  exact h key j (hpending ▸ hj)

theorem Marked.step (h : s.Marked) (hstep : step s a = some s') : s'.Marked := by
  cases moves_of_step hstep with
  | call i method key opts hfresh =>
    intro k j hj
    obtain ⟨other, hother, hk, hin⟩ := h k j hj
    have hji : j ≠ i := by
      rintro rfl
      exact Option.some_ne_none _ (hother.symm.trans hfresh)
    exact ⟨other, (calls_put_of_ne s hji _).trans hother, hk, hin⟩
  | cancel i call hcall => exact h.put hcall rfl rfl id
  | advance i call r hcall hturn => exact h.turn hcall hturn
  | abort i call rest hcall hphase hcanceled =>
    exact h.turn hcall (.stopped rest hphase hcanceled)
  | subscribe key => exact h.of_bus rfl
  | unsubscribe key ch => exact h.of_bus (s.bus.pending_unsubscribe key ch)
  | receive ch q hreceive =>
    obtain ⟨event, -, rfl⟩ := Option.map_eq_some_iff.mp hreceive
    exact h.of_bus rfl

theorem topic_of_step (hstep : step s a = some s') {ch : ℕ} (hlt : ch < s.bus.nextChan) :
    ch < s'.bus.nextChan ∧ (s'.bus.chans ch).topic = (s.bus.chans ch).topic := by
  cases moves_of_step hstep with
  | call | cancel | abort => exact ⟨hlt, rfl⟩
  | advance i call r hcall hturn =>
    exact ⟨hturn.frame.nextChan ▸ hlt, hturn.frame.topic ch⟩
  | subscribe key =>
    refine ⟨Nat.lt_succ_of_lt hlt, ?_⟩
    simp [Bus.subscribe, Nat.ne_of_lt hlt]
  | unsubscribe key c =>
    rw [Bus.nextChan_unsubscribe, Bus.topic_unsubscribe]
    exact ⟨hlt, rfl⟩
  | receive c q hreceive =>
    obtain ⟨event, -, rfl⟩ := Option.map_eq_some_iff.mp hreceive
    refine ⟨hlt, ?_⟩
    by_cases hc : ch = c <;> simp [hc]

theorem mem_subs_of_step (h : s.Sound) (hstep : step s a = some s') {key : Key} {ch : ℕ}
    (hmem : ch ∈ s.bus.subs key) (ha : a ≠ .unsubscribe key ch) :
    ch ∈ s'.bus.subs key := by
  cases moves_of_step hstep with
  | call => exact hmem
  | cancel => exact hmem
  | advance i call r hcall hturn => exact hturn.frame.subs ▸ hmem
  | abort => exact hmem
  | subscribe k =>
    by_cases hk : key = k
    · subst hk
      simp [Bus.subscribe, hmem]
    · simpa [Bus.subscribe, hk] using hmem
  | unsubscribe k c =>
    refine (h.bus.mem_unsubscribe_iff k c key ch).mpr ⟨fun heq => ha ?_, hmem⟩
    obtain ⟨rfl, rfl⟩ := Prod.mk.inj heq
    rfl
  | receive c q hreceive =>
    obtain ⟨event, -, rfl⟩ := Option.map_eq_some_iff.mp hreceive
    exact hmem

theorem Marked.pending_eq_none (h : s.Marked)
    (hcall : s.calls i = some call) (hphase : call.phase = .checked)
    (halone : ∀ j other, s.calls j = some other → other.key = call.key →
      ¬other.phase.Done → j = i) : s.bus.pending call.key = none := by
  by_contra hmarked
  obtain ⟨j, hj⟩ := Option.ne_none_iff_exists'.mp hmarked
  obtain ⟨other, hother, hkey, hin⟩ := h call.key j hj
  obtain rfl := halone j other hother hkey hin.not_done
  obtain rfl := Option.mem_unique hcall hother
  rw [hphase] at hin
  exact hin

end System

/-! ## On the way -/

namespace Call

/-- The channels that a call has to reach. -/
def Ahead (b : Bus) (call : Call) (ch : ℕ) : Prop :=
  match call.phase with
  | .called => ch ∈ b.subs call.key
  | .checked => ch ∈ b.subs call.key
  | .marked => ch ∈ b.subs call.key
  | .sending rest => ch ∈ rest
  | .clearing _ => False
  | .returned _ => False

/-- A publish that has not been cancelled has to reach the channel. -/
def Reaching (b : Bus) (call : Call) (ch : ℕ) : Prop :=
  call.method = .publish ∧ call.canceled = false ∧ call.Ahead b ch

theorem Reaching.not_done {b : Bus} {ch : ℕ} (h : call.Reaching b ch) : ¬call.phase.Done := by
  obtain ⟨-, -, hahead⟩ := h
  rw [Ahead] at hahead
  cases hphase : call.phase <;> simp_all [Phase.Done]

theorem Ahead.congr {b b' : Bus} {ch : ℕ} (h : call.Ahead b ch)
    (hsubs : ch ∈ b.subs call.key → ch ∈ b'.subs call.key) :
    call.Ahead b' ch := by
  rw [Ahead] at h ⊢
  cases hphase : call.phase with
  | called | checked | marked =>
    rw [hphase] at h
    exact hsubs h
  | sending rest | clearing err | returned err => rwa [hphase] at h

end Call

theorem Turn.reaching {b : Bus} {i : ℕ}
    (h : Turn b i call r) (hbus : b.Sound) (hsends : call.Sends b i)
    (hunmerged : call.phase = .checked → b.pending call.key = none) {ch : ℕ}
    (hr : call.Reaching b ch) :
    r.2.Reaching r.1 ch ∨ (r.1.chans ch).buffer.isSome := by
  obtain ⟨hmethod, hcanceled, hahead⟩ := hr
  rw [Call.Ahead] at hahead
  cases h with
  | rejected hphase hc | stopped rest hphase hc =>
    rw [hcanceled] at hc
    cases hc
  | checked hphase | marked hphase | entered hphase =>
    rw [hphase] at hahead
    exact .inl ⟨hmethod, hcanceled, hahead⟩
  | merged j hphase hpending =>
    rw [hunmerged hphase] at hpending
    cases hpending
  | refused err hphase hrefused =>
    rw [Call.refused, hmethod] at hrefused
    rw [hphase, (Option.ite_none_right_eq_some.mp hrefused).1] at hahead
    cases hahead
  | panicked c rest hphase hclosed =>
    have hmem := (hsends _ hphase).2.subset List.mem_cons_self
    rw [(hbus.opened _ c hmem).2.1] at hclosed
    cases hclosed
  | sent c rest hphase =>
    rw [hphase] at hahead
    rcases List.mem_cons.mp hahead with rfl | hrest
    · exact .inr (by simp)
    · exact .inl ⟨hmethod, hcanceled, hrest⟩
  | skipped c rest hphase hfull =>
    rw [hphase] at hahead
    rcases List.mem_cons.mp hahead with rfl | hrest
    · exact .inr hfull
    · exact .inl ⟨hmethod, hcanceled, hrest⟩
  | unsatisfied hphase | finished published hphase | cleared err hphase =>
    rw [hphase] at hahead
    cases hahead

namespace System

/-- An event of the topic is on its way to the channel. -/
def OnWay (s : System) (topic : Key) (ch : ℕ) : Prop :=
  (s.bus.chans ch).buffer.isSome ∨ ∃ i call, s.calls i = some call ∧
    call.key = topic ∧ call.Reaching s.bus ch

variable {s s' : System} {topic : Key} {ch : ℕ}

theorem OnWay.put (h : s.OnWay topic ch) {i : ℕ} (hsubs : r.1.subs = s.bus.subs)
    (hbuffer : (s.bus.chans ch).buffer.isSome → (r.1.chans ch).buffer.isSome)
    (hself : ∀ call, s.calls i = some call → call.key = topic →
      call.Reaching s.bus ch → (s.put i r).OnWay topic ch) :
    (s.put i r).OnWay topic ch := by
  rcases h with hbuffered | ⟨j, other, hother, hkey, hreach⟩
  · exact .inl (hbuffer hbuffered)
  · by_cases hji : j = i
    · subst hji
      exact hself other hother hkey hreach
    · refine .inr ⟨j, other, (calls_put_of_ne s hji r).trans hother, hkey,
        hreach.1, hreach.2.1, hreach.2.2.congr ?_⟩
      rw [bus_put, hsubs]
      exact id

theorem OnWay.turn (h : s.OnWay topic ch) (hs : s.Sound) {i : ℕ} (hcall : s.calls i = some call)
    (hturn : Turn s.bus i call r) (hunmerged : call.key = topic → call.phase = .checked →
      s.bus.pending call.key = none) : (s.put i r).OnWay topic ch := by
  refine h.put hturn.frame.subs (hturn.frame.buffer ch) ?_
  intro call' hcall' hkey hreach
  obtain rfl := Option.mem_unique hcall hcall'
  rcases hturn.reaching hs.bus (hs.sends i call hcall) (hunmerged hkey) hreach
    with hgoes | hbuffered
  · exact .inr ⟨i, r.2, calls_put_self s i r, hturn.frame.key.trans hkey, hgoes⟩
  · exact .inl hbuffered

theorem onWay_call (i : ℕ) (opts : List PublishOption) (hch : ch ∈ s.bus.subs topic) :
    (s.put i (s.bus, Call.new s.bus .publish topic opts)).OnWay topic ch :=
  Or.inr ⟨i, _, calls_put_self s i _, rfl, rfl, rfl, hch⟩

section

variable (h : s.OnWay topic ch)
include h

theorem OnWay.subscribe (hch : ch ≠ s.bus.nextChan) (key : Key) :
    ({ s with bus := s.bus.subscribe key } : System).OnWay topic ch := by
  rcases h with hbuffered | ⟨i, call, hcall, hkey, hmethod, hcanceled, hahead⟩
  · exact .inl (by simpa [Bus.subscribe, hch] using hbuffered)
  · refine .inr ⟨i, call, hcall, hkey, hmethod, hcanceled, hahead.congr ?_⟩
    intro hmem
    by_cases hk : call.key = key
    · simp [Bus.subscribe, hk ▸ hmem, hk]
    · simpa [Bus.subscribe, hk] using hmem

theorem OnWay.unsubscribe_of_ne (hs : s.Sound) {key : Key} {c : ℕ} (hne : (topic, ch) ≠ (key, c)) :
    ({ s with bus := s.bus.unsubscribe key c } : System).OnWay topic ch := by
  rcases h with hbuffered | ⟨i, call, hcall, rfl, hmethod, hcanceled, hahead⟩
  · exact .inl (by rwa [Bus.buffer_unsubscribe])
  · refine .inr ⟨i, call, hcall, rfl, hmethod, hcanceled, hahead.congr ?_⟩
    exact fun hmem => (hs.bus.mem_unsubscribe_iff key c call.key ch).mpr ⟨hne, hmem⟩

theorem OnWay.unsubscribe (hs : s.Sound) {key : Key} (hkey : topic ≠ key) (c : ℕ) :
    ({ s with bus := s.bus.unsubscribe key c } : System).OnWay topic ch :=
  h.unsubscribe_of_ne hs fun heq => hkey (Prod.mk.inj heq).1

theorem OnWay.receive {c : ℕ} (hc : ch ≠ c) {q : Event × Bus} (hq : s.bus.receive c = some q) :
    ({ s with bus := q.2 } : System).OnWay topic ch := by
  obtain ⟨event, -, rfl⟩ := Option.map_eq_some_iff.mp hq
  rcases h with hbuffered | ⟨i, call, hcall, hkey, hmethod, hcanceled, hahead⟩
  · exact .inl (by simpa [hc] using hbuffered)
  · exact .inr ⟨i, call, hcall, hkey, hmethod, hcanceled, hahead.congr id⟩

end

/-! ## Where events come from -/

/-- The publishes of the topic that are under way are plain ones that have not
been cancelled. -/
def Plain (s : System) (topic : Key) : Prop :=
  ∀ i call, s.calls i = some call → call.key = topic → ¬call.phase.Done →
    call.method = .publish ∧ call.canceled = false

end System

/-- The steps that neither begin nor cancel a publish of the topic. -/
def Action.Leaves (topic : Key) : Action → Prop
  | .call _ _ key _ => key ≠ topic
  | .cancel _ => False
  | .abort _ => False
  | _ => True

variable {b : Bus} {i : ℕ} {ch : ℕ}

theorem Turn.ahead (h : Turn b i call r) (hahead : r.2.Ahead r.1 ch) : call.Ahead b ch := by
  cases h with
  | checked hphase | marked hphase | entered hphase =>
    rw [Call.Ahead, hphase]
    exact hahead
  | panicked c rest hphase | sent c rest hphase | skipped c rest hphase =>
    rw [Call.Ahead, hphase]
    exact List.mem_cons_of_mem c hahead
  | _ => cases hahead

theorem Turn.sending_of_buffer (h : Turn b i call r) (hempty : (b.chans ch).buffer = none)
    (hbuffer : (r.1.chans ch).buffer.isSome) :
    ∃ rest, call.phase = .sending (ch :: rest) := by
  cases h with
  | sent c rest hphase =>
    by_cases hc : ch = c
    · exact ⟨rest, hc ▸ hphase⟩
    · simp [hc, hempty] at hbuffer
  | _ => exact absurd hbuffer (by simp [Call.leave, Call.clear, hempty])

theorem Turn.ahead_of_buffer (h : Turn b i call r) (hempty : (b.chans ch).buffer = none)
    (hbuffer : (r.1.chans ch).buffer.isSome) : call.Ahead b ch := by
  obtain ⟨rest, hphase⟩ := h.sending_of_buffer hempty hbuffer
  rw [Call.Ahead, hphase]
  exact List.mem_cons_self

namespace System

variable {s s' : System} {topic : Key} {ch : ℕ} {a : Action}

theorem sending_of_buffer (hstep : step s a = some s') (hempty : (s.bus.chans ch).buffer = none)
    (hbuffer : (s'.bus.chans ch).buffer.isSome) :
    ∃ i call rest, a = .advance i ∧ s.calls i = some call ∧ call.phase = .sending (ch :: rest) := by
  cases moves_of_step hstep with
  | advance i call r hcall hturn =>
    obtain ⟨rest, hphase⟩ := hturn.sending_of_buffer hempty hbuffer
    exact ⟨i, call, rest, rfl, hcall, hphase⟩
  | call | cancel => exact absurd hbuffer (by simp [hempty])
  | abort => exact absurd hbuffer (by simp [Call.leave, hempty])
  | subscribe key =>
    by_cases hc : ch = s.bus.nextChan
    · simp [Bus.subscribe, hc, Channel.new] at hbuffer
    · simp [Bus.subscribe, hc, hempty] at hbuffer
  | unsubscribe key c =>
    exact absurd hbuffer (by simp [hempty])
  | receive c q hreceive =>
    obtain ⟨event, -, rfl⟩ := Option.map_eq_some_iff.mp hreceive
    by_cases hc : ch = c
    · simp [hc] at hbuffer
    · simp [hc, hempty] at hbuffer

theorem OnWay.of_turn (hs : s.Sound) (hplain : s.Plain topic) (hmem : ch ∈ s.bus.subs topic) {i : ℕ}
    (hcall : s.calls i = some call) (hturn : Turn s.bus i call r)
    (h : (s.put i r).OnWay topic ch) : s.OnWay topic ch := by
  have hreach : call.key = topic → call.Ahead s.bus ch → s.OnWay topic ch := by
    intro hkey hahead
    obtain ⟨hmethod, hcanceled⟩ := hplain i call hcall hkey hturn.not_done
    exact .inr ⟨i, call, hcall, hkey, hmethod, hcanceled, hahead⟩
  rcases h with hbuffered | ⟨j, other, hother, hkey, hmethod, hcanceled, hahead⟩
  · rcases hempty : (s.bus.chans ch).buffer with _ | event
    · have hsent := hturn.ahead_of_buffer hempty hbuffered
      refine hreach ?_ hsent
      by_contra hkey
      -- calls of other keys do not send to the channel
      have htopic : (s.bus.chans ch).topic ≠ call.key := by
        rw [(hs.bus.opened topic ch hmem).2.2]
        exact .symm hkey
      have hsame := hturn.buffer_of_topic_ne hs.bus (hs.sends i call hcall) htopic
      rw [bus_put, hsame, hempty] at hbuffered
      cases hbuffered
    · exact .inl (by rw [hempty]; rfl)
  · rcases Entries.update_cases hother with ⟨rfl, rfl⟩ | ⟨-, hother⟩
    · exact hreach (hturn.frame.key.symm.trans hkey) (hturn.ahead hahead)
    · refine .inr ⟨j, other, hother, hkey, hmethod, hcanceled, hahead.congr ?_⟩
      rw [bus_put, hturn.frame.subs]
      exact id

theorem OnWay.of_bus {b' : Bus} (h : ({ s with bus := b' } : System).OnWay topic ch)
    (hbuffer : (b'.chans ch).buffer.isSome → (s.bus.chans ch).buffer.isSome)
    (hsubs : ch ∈ b'.subs topic → ch ∈ s.bus.subs topic) :
    s.OnWay topic ch := by
  rcases h with hbuffered | ⟨i, call, hcall, rfl, hmethod, hcanceled, hahead⟩
  · exact .inl (hbuffer hbuffered)
  · exact .inr ⟨i, call, hcall, rfl, hmethod, hcanceled, hahead.congr hsubs⟩

theorem OnWay.of_step (hs : s.Sound) (hplain : s.Plain topic)
    (hmem : ch ∈ s.bus.subs topic) (ha : a.Leaves topic)
    (hstep : step s a = some s') (h : s'.OnWay topic ch) :
    s.OnWay topic ch := by
  cases moves_of_step hstep with
  | call i method key opts hfresh =>
    rcases h with hbuffered | ⟨j, other, hother, hkey, hreach⟩
    · exact .inl hbuffered
    · rcases Entries.update_cases hother with ⟨rfl, rfl⟩ | ⟨-, hother⟩
      · exact absurd hkey ha
      · exact .inr ⟨j, other, hother, hkey, hreach⟩
  | cancel => exact ha.elim
  | advance i call r hcall hturn => exact h.of_turn hs hplain hmem hcall hturn
  | abort => exact ha.elim
  | subscribe key =>
    refine h.of_bus (fun hbuffered => ?_) fun _ => hmem
    have hne : ch ≠ s.bus.nextChan := Nat.ne_of_lt (hs.bus.opened topic ch hmem).1
    simpa [Bus.subscribe, hne] using hbuffered
  | unsubscribe key c =>
    refine h.of_bus (fun hbuffered => ?_) fun _ => hmem
    rwa [Bus.buffer_unsubscribe] at hbuffered
  | receive c q hreceive =>
    obtain ⟨event, -, rfl⟩ := Option.map_eq_some_iff.mp hreceive
    refine h.of_bus (fun hbuffered => ?_) fun _ => hmem
    by_cases hc : ch = c
    · simp [hc] at hbuffered
    · simpa [hc] using hbuffered

theorem OnWay.step (h : s.OnWay topic ch) (hs : s.Sound) (hm : s.Marked)
    (halone : ∀ i j call other, s.calls i = some call →
      s.calls j = some other → call.key = topic → other.key = topic →
      ¬call.phase.Done → ¬other.phase.Done → i = j)
    (hmem : ch ∈ s.bus.subs topic) (ha : a.Leaves topic)
    (hreceive : a ≠ .receive ch) (hunsubscribe : a ≠ .unsubscribe topic ch)
    (hstep : System.step s a = some s') : s'.OnWay topic ch := by
  cases moves_of_step hstep with
  | call i method key opts hfresh =>
    refine h.put rfl id fun call hcall => ?_
    exact absurd (hfresh.symm.trans hcall).symm (Option.some_ne_none call)
  | cancel => exact ha.elim
  | advance i call r hcall hturn =>
    refine h.turn hs hcall hturn fun hkey hphase => ?_
    refine hm.pending_eq_none hcall hphase fun j other hother hk hunder => ?_
    exact halone j i other call hother hcall (hk.trans hkey) hkey hunder hturn.not_done
  | abort => exact ha.elim
  | subscribe key =>
    exact h.subscribe (Nat.ne_of_lt (hs.bus.opened topic ch hmem).1) key
  | unsubscribe key c =>
    refine h.unsubscribe_of_ne hs fun heq => hunsubscribe ?_
    obtain ⟨rfl, rfl⟩ := Prod.mk.inj heq
    rfl
  | receive c q hq =>
    refine h.receive (fun hc => hreceive ?_) hq
    rw [hc]

end System

end GoWarp.SyncBus
