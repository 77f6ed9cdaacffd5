import GoWarp.Core.LeaseManager
import GoWarp.SyncBus.InFlight

/-!
# What the goroutines of a lease keep

Every goroutine of a lease runs `revoke` for an id, and `revoke` takes the
lease that is in the table under that id.  This is the lease of the goroutine
as long as a lease that is in the table, or on its way into it, is the only one
of its id that still has a goroutine, a timer or a pending `revoke`.

The invariant says this, together with what a lease in the table can rely on:
its channel is subscribed, hence open, and what is in the channel was sent
while the lease was in the table.  The lemmas are one for each part of a
step.
-/

namespace GoWarp.Core

open Support

variable {T : Type}

namespace LeaseManager

/-- The reasons for which lease `e` may end. -/
def Cause.Stated (e : ℕ) : Cause → Prop
  | .call => True
  | .timer e' => e' = e
  | .event _ entry => entry = some e
  | .closed _ => False

/-- The lease has not left the table. -/
def Lease.Live (l : Lease) : Prop := l.stage ≠ .outside

/-- The timer and the goroutines of the lease have come to rest. -/
def Lease.Quiet (l : Lease) : Prop := l.watching = false ∧ l.renewal = .done ∧ l.timer = false

/-- The lease is at rest, and nothing of it is about to look at the table. -/
def Finished (s : LeaseManager T) (e : ℕ) (l : Lease) : Prop :=
  l.Quiet ∧ ∀ r ∈ s.revocations, r.phase = .lookup → r.cause.lease ≠ some e

/-! ## The invariant -/

/-- A `revoke` before its lookup belongs to a lease of its id, which is out of
the table unless the reason is a stated one; a `revoke` that has removed a
lease had a stated reason. -/
def Caused (s : LeaseManager T) (r : Revocation) : Prop :=
  (r.phase = .lookup → ∀ e, r.cause.lease = some e →
    ∃ l, s.objects e = some l ∧ l.id = r.id ∧ (l.Live → r.cause.Stated e)) ∧
  ∀ e, r.phase.removed = some e → r.cause.Stated e ∧ ∃ l, s.objects e = some l ∧ l.stage = .outside

/-- What holds of each lease: the table has it while it is inside, `Attach`
holds the mutex until a placeholder is inside, and as long as the lease has not
left the table its goroutines are awake, its channel is subscribed, and what is
in the channel was sent while the lease was inside. -/
structure Attends (s : LeaseManager T) (e : ℕ) (l : Lease) : Prop where
  bounded : e < s.next
  made : l.stage = .made → l.sub = none
  inside : l.stage = .inside → s.leases l.id = some e
  held : l.stage = .made ∨ l.stage = .subscribed → l.granted = false → s.holder = some e
  awake : l.Live → l.stopped = false ∧ (l.granted = true → l.renewal ≠ .done)
  sub_lt : ∀ ch, l.sub = some ch → ch < s.net.bus.nextChan
  listens : l.Live → ∀ ch, l.sub = some ch → ch ∈ s.net.bus.subs (leaseKey l.id)
  noted : l.Live → ∀ ch, l.sub = some ch → (s.net.bus.chans ch).buffer.isSome →
    l.stage = .inside ∧ s.sent ch l.id = some e

/-- The invariant.  Of the leases of one id at most one has not left the table,
and then the others are finished. -/
structure Kept (s : LeaseManager T) : Prop where
  sound : s.net.Sound
  table : ∀ id e, s.leases id = some e → ∃ l, s.objects e = some l ∧ l.id = id ∧ l.stage = .inside
  lease : ∀ e l, s.objects e = some l → s.Attends e l
  apart : ∀ e e' l l' ch, s.objects e = some l → s.objects e' = some l' →
    l.sub = some ch → l'.sub = some ch → e' = e
  alone : ∀ e e' l l', s.objects e = some l → s.objects e' = some l' →
    l.Live → l'.id = l.id → e' ≠ e → l'.stage = .outside ∧ s.Finished e' l'
  caused : ∀ r ∈ s.revocations, s.Caused r

theorem kept_new (cache : Cache T) : (new cache).Kept where
  sound := SyncBus.System.sound_new
  table _ _ h := by cases h
  lease _ _ h := by cases h
  apart _ _ _ _ _ h := by cases h
  alone _ _ _ _ h := by cases h
  caused _ h := by cases h

/-! ## What the parts of a step keep -/

/-- What a step of the goroutines of a lease leaves as it was; a lease at rest
stays at rest, and one that has not left the table stays awake. -/
structure Lease.Follows (l l' : Lease) : Prop where
  id : l'.id = l.id
  sub : l'.sub = l.sub
  stage : l'.stage = l.stage
  granted : l'.granted = l.granted
  quiet : l.Quiet → l'.Quiet
  awake : l.Live → l.stopped = false ∧ (l.granted = true → l.renewal ≠ .done) →
    l'.stopped = false ∧ (l'.granted = true → l'.renewal ≠ .done)

namespace Lease.Follows

variable {l l' : Lease}

theorem live (h : l.Follows l') (hlive : l'.Live) : l.Live := fun hout => hlive (h.stage.trans hout)

end Lease.Follows

namespace Attends

variable {s s' : LeaseManager T} {e : ℕ} {l l' : Lease}

theorem congr (h : s.Attends e l) (hnext : s.next ≤ s'.next)
    (hinside : l.stage = .inside → s.leases l.id = some e → s'.leases l.id = some e)
    (hholder : s.holder = some e → s'.holder = some e)
    (hnet : s'.net = s.net) (hsent : s'.sent = s.sent) : s'.Attends e l where
  bounded := Nat.lt_of_lt_of_le h.bounded hnext
  made := h.made
  inside hstage := hinside hstage (h.inside hstage)
  held hstage hgranted := hholder (h.held hstage hgranted)
  awake := h.awake
  sub_lt := hnet ▸ h.sub_lt
  listens := hnet ▸ h.listens
  noted := by
    rw [hnet, hsent]
    exact h.noted

theorem same (h : s.Attends e l) (hnext : s'.next = s.next)
    (hleases : s'.leases = s.leases) (hholder : s'.holder = s.holder)
    (hnet : s'.net = s.net) (hsent : s'.sent = s.sent) : s'.Attends e l :=
  h.congr hnext.ge (fun _ hl => hleases ▸ hl) (fun he => hholder.trans he) hnet hsent

theorem follows (h : s.Attends e l) (hf : l.Follows l') : s.Attends e l' where
  bounded := h.bounded
  made hstage := hf.sub.trans (h.made (hf.stage.symm.trans hstage))
  inside hstage := hf.id ▸ h.inside (hf.stage.symm.trans hstage)
  held hstage hgranted := h.held (hf.stage ▸ hstage) (hf.granted.symm.trans hgranted)
  awake hlive := hf.awake (hf.live hlive) (h.awake (hf.live hlive))
  sub_lt ch hsub := h.sub_lt ch (hf.sub.symm.trans hsub)
  listens hlive ch hsub := hf.id ▸ h.listens (hf.live hlive) ch (hf.sub.symm.trans hsub)
  noted hlive ch hsub hbuffer := by
    rw [hf.id, hf.stage]
    exact h.noted (hf.live hlive) ch (hf.sub.symm.trans hsub) hbuffer

end Attends

theorem Caused.mono {s s' : LeaseManager T} {r : Revocation} (h : s.Caused r)
    (hobjects : ∀ e l, s.objects e = some l →
      ∃ l', s'.objects e = some l' ∧ l'.id = l.id ∧ (l'.Live → l.Live)) :
    s'.Caused r := by
  obtain ⟨hlookup, hremoved⟩ := h
  refine ⟨fun hphase e hcause => ?_, fun e he => ?_⟩
  · obtain ⟨l, hl, hid, hstated⟩ := hlookup hphase e hcause
    obtain ⟨l', hl', hid', hlive⟩ := hobjects e l hl
    exact ⟨l', hl', hid'.trans hid, fun h' => hstated (hlive h')⟩
  · obtain ⟨hstated, l, hl, hout⟩ := hremoved e he
    obtain ⟨l', hl', -, hlive⟩ := hobjects e l hl
    exact ⟨hstated, l', hl', by_contra fun h' => hlive h' hout⟩

theorem objects_add (s : LeaseManager T) (l : Lease) (e : ℕ) :
    (s.add l).objects e = if e = s.next then some l else s.objects e :=
  Function.update_apply ..

theorem leases_enter (s : LeaseManager T) (e : ℕ) (id id' : String) :
    (s.enter e id).leases id' = if id' = id then some e else s.leases id' :=
  Function.update_apply ..

theorem leases_delete (s : LeaseManager T) (id id' : String) :
    (s.delete id).leases id' = if id' = id then none else s.leases id' :=
  Function.update_apply ..

theorem objects_modify {s : LeaseManager T} {e : ℕ} {l : Lease}
    (hl : s.objects e = some l) (f : Lease → Lease) (e' : ℕ) :
    (s.modify e f).objects e' = if e' = e then some (f l) else s.objects e' := by
  rw [modify, hl]
  exact Function.update_apply ..

namespace Kept

variable {s s' : LeaseManager T}

variable {e : ℕ} {l : Lease}

theorem change (h : s.Kept) {l' : Lease} (hl : s.objects e = some l)
    (hobjects : ∀ e', s'.objects e' = if e' = e then some l' else s.objects e')
    (hrevocations : s'.revocations = s.revocations) (hid : l'.id = l.id) (hlive : l'.Live → l.Live)
    (hquiet : l.stage = .outside → l.Quiet → l'.Quiet)
    (hsub : ∀ ch, l'.sub = some ch → l.sub = some ch ∨
      ∀ e' l₀, s.objects e' = some l₀ → l₀.sub ≠ some ch) (hsound : s'.net.Sound)
    (htable : ∀ id e', s'.leases id = some e' → s.leases id = some e' ∧ e' ≠ e ∨
      e' = e ∧ id = l'.id ∧ l'.stage = .inside) (hself : s'.Attends e l')
    (hother : ∀ e' l₀, e' ≠ e → s.objects e' = some l₀ → s'.Attends e' l₀) :
    s'.Kept := by
  -- a lease of the new state is the changed one or an old one
  have hcases : ∀ {e' l₀}, s'.objects e' = some l₀ →
      e' = e ∧ l₀ = l' ∨ e' ≠ e ∧ s.objects e' = some l₀ := by
    intro e' l₀ h₀
    rw [hobjects] at h₀
    split at h₀
    next he => exact .inl ⟨he, (Option.some.inj h₀).symm⟩
    next he => exact .inr ⟨he, h₀⟩
  have hout : l.stage = .outside → l'.stage = .outside :=
    fun hstage => by_contra fun hlive' => hlive hlive' hstage
  refine ⟨hsound, ?_, ?_, ?_, ?_, ?_⟩
  · intro id e' hentry
    rcases htable id e' hentry with ⟨hold, hne⟩ | ⟨rfl, hid', hstage⟩
    · obtain ⟨l₀, h₀, hid', hstage⟩ := h.table id e' hold
      exact ⟨l₀, by rw [hobjects, if_neg hne, h₀], hid', hstage⟩
    · exact ⟨l', by rw [hobjects, if_pos rfl], hid'.symm, hstage⟩
  · intro e' l₀ h₀
    rcases hcases h₀ with ⟨rfl, rfl⟩ | ⟨hne, hold⟩
    · exact hself
    · exact hother e' l₀ hne hold
  · intro e₁ e₂ l₁ l₂ ch h₁ h₂ hsub₁ hsub₂
    rcases hcases h₁ with ⟨rfl, rfl⟩ | ⟨hne₁, hold₁⟩ <;>
      rcases hcases h₂ with ⟨rfl, rfl⟩ | ⟨hne₂, hold₂⟩
    · rfl
    · rcases hsub ch hsub₁ with hsame | hnew
      · exact h.apart e₁ e₂ l l₂ ch hl hold₂ hsame hsub₂
      · exact absurd hsub₂ (hnew e₂ l₂ hold₂)
    · rcases hsub ch hsub₂ with hsame | hnew
      · exact h.apart e₁ e₂ l₁ l ch hold₁ hl hsub₁ hsame
      · exact absurd hsub₁ (hnew e₁ l₁ hold₁)
    · exact h.apart e₁ e₂ l₁ l₂ ch hold₁ hold₂ hsub₁ hsub₂
  · intro e₁ e₂ l₁ l₂ h₁ h₂ hlive₁ hid₁₂ hne
    rw [Finished, hrevocations]
    rcases hcases h₁ with ⟨rfl, rfl⟩ | ⟨hne₁, hold₁⟩ <;>
      rcases hcases h₂ with ⟨rfl, rfl⟩ | ⟨hne₂, hold₂⟩
    · exact absurd rfl hne
    · exact h.alone e₁ e₂ l l₂ hl hold₂ (hlive hlive₁) (hid₁₂.trans hid) hne
    · obtain ⟨hstage, hrest, hpending⟩ :=
        h.alone e₁ e₂ l₁ l hold₁ hl hlive₁ (hid.symm.trans hid₁₂) hne
      exact ⟨hout hstage, hquiet hstage hrest, hpending⟩
    · exact h.alone e₁ e₂ l₁ l₂ hold₁ hold₂ hlive₁ hid₁₂ hne
  · intro r hr
    refine (h.caused r (hrevocations ▸ hr)).mono fun e' l₀ h₀ => ?_
    rw [hobjects]
    by_cases he : e' = e
    · subst he
      obtain rfl := Option.mem_unique hl h₀
      exact ⟨l', if_pos rfl, hid, hlive⟩
    · exact ⟨l₀, (if_neg he).trans h₀, rfl, id⟩

variable {f : Lease → Lease} {id : String} {i : ℕ} {r : Revocation} {phase : Phase} {ch : ℕ}

theorem modify (h : s.Kept) (hl : s.objects e = some l)
    (hf : l.Follows (f l)) : (s.modify e f).Kept := by
  refine h.change hl (objects_modify hl f) rfl hf.id hf.live (fun _ => hf.quiet)
    (fun ch hch => .inl (hf.sub.symm.trans hch)) h.sound ?_ ?_ ?_
  · intro id e' hentry
    by_cases he : e' = e
    · subst he
      obtain ⟨l₀, h₀, hid, hstage⟩ := h.table id e' hentry
      obtain rfl := Option.mem_unique hl h₀
      exact .inr ⟨rfl, hid.symm.trans hf.id.symm, hf.stage.trans hstage⟩
    · exact .inl ⟨hentry, he⟩
  · exact ((h.lease e l hl).follows hf).same rfl rfl rfl rfl rfl
  · exact fun e' l₀ _ h₀ => (h.lease e' l₀ h₀).same rfl rfl rfl rfl rfl

theorem spawn (h : s.Kept) {publish : Bool} {cause : Cause}
    (hcaused : s.Caused ⟨id, publish, cause, .lookup⟩)
    (hbusy : ∀ e l, cause.lease = some e → s.objects e = some l → ¬l.Quiet) :
    (s.spawn id publish cause).Kept where
  sound := h.sound
  table := h.table
  lease e l hl := (h.lease e l hl).same rfl rfl rfl rfl rfl
  apart := h.apart
  alone e e' l l' hl hl' hlive hid hne := by
    obtain ⟨hstage, hquiet, hpending⟩ := h.alone e e' l l' hl hl' hlive hid hne
    refine ⟨hstage, hquiet, fun r hr hphase => ?_⟩
    rcases List.mem_append.mp hr with hold | hnew
    · exact hpending r hold hphase
    · obtain rfl := List.mem_singleton.mp hnew
      exact fun hcause => hbusy e' l' hcause hl' hquiet
  caused r hr := by
    rcases List.mem_append.mp hr with hold | hnew
    · exact h.caused r hold
    · obtain rfl := List.mem_singleton.mp hnew
      exact hcaused

theorem spawn_of (h : s.Kept) (hl : s.objects e = some l)
    {publish : Bool} {cause : Cause} (hcause : cause.lease = some e)
    (hstated : l.Live → cause.Stated e) (hbusy : ¬l.Quiet) :
    (s.spawn l.id publish cause).Kept := by
  refine h.spawn ⟨fun _ e' he' => ?_, fun e' he' => ?_⟩ fun e' l' he' hl' => ?_
  · obtain rfl := Option.mem_unique hcause he'
    exact ⟨l, hl, rfl, hstated⟩
  · cases he'
  · obtain rfl := Option.mem_unique hcause he'
    obtain rfl := Option.mem_unique hl hl'
    exact hbusy

theorem goOn (h : s.Kept)
    (hphase : phase ≠ .lookup) (hcaused : s.Caused { r with phase := phase }) :
    (s.goOn i r phase).Kept where
  sound := h.sound
  table := h.table
  lease e l hl := (h.lease e l hl).same rfl rfl rfl rfl rfl
  apart := h.apart
  alone e e' l l' hl hl' hlive hid hne := by
    obtain ⟨hstage, hquiet, hpending⟩ := h.alone e e' l l' hl hl' hlive hid hne
    refine ⟨hstage, hquiet, fun r' hr' hlookup => ?_⟩
    rcases List.mem_or_eq_of_mem_set hr' with hold | rfl
    · exact hpending r' hold hlookup
    · exact absurd hlookup hphase
  caused r' hr' := by
    rcases List.mem_or_eq_of_mem_set hr' with hold | rfl
    · exact h.caused r' hold
    · exact hcaused

variable {net : SyncBus.System}

variable (h : s.Kept)
include h

theorem heard {a : SyncBus.Action}
    (hspares : ∀ e l ch, s.objects e = some l → l.Live → l.sub = some ch →
      a ≠ .unsubscribe (leaseKey l.id) ch)
    (hsends : ∀ i call e l ch rest, a = .advance i →
      s.net.calls i = some call → call.phase = .sending (ch :: rest) →
      s.objects e = some l → l.Live → l.sub = some ch → l.stage = .inside)
    (hnet : SyncBus.System.step s.net a = some net) :
    (s.heard net).Kept := by
  refine ⟨h.sound.step hnet, h.table, ?_, h.apart, h.alone, h.caused⟩
  intro e l hl
  have hlease := h.lease e l hl
  refine ⟨hlease.bounded, hlease.made, hlease.inside, hlease.held, hlease.awake, ?_, ?_, ?_⟩
  · intro ch hsub
    exact (SyncBus.System.topic_of_step hnet (hlease.sub_lt ch hsub)).1
  · intro hlive ch hsub
    exact SyncBus.System.mem_subs_of_step h.sound hnet
      (hlease.listens hlive ch hsub) (hspares e l ch hl hlive hsub)
  · intro hlive ch hsub hbuffer
    cases hold : (s.net.bus.chans ch).buffer with
    | none =>
      obtain ⟨i, call, rest, ha, hcall, hphase⟩ :=
        SyncBus.System.sending_of_buffer hnet hold hbuffer
      have hstage := hsends i call e l ch rest ha hcall hphase hl hlive hsub
      have hsent : (s.heard net).sent ch = s.leases := sent_heard_of_none hold hbuffer
      exact ⟨hstage, hsent ▸ hlease.inside hstage⟩
    | some event =>
      have hne : (s.net.bus.chans ch).buffer ≠ none := by simp [hold]
      rw [sent_heard_of_some hne]
      exact hlease.noted hlive ch hsub (Option.isSome_iff_ne_none.mpr hne)

theorem add {holder : Option ℕ}
    (hothers : ∀ e l', s.objects e = some l' → l'.id = l.id → l'.stage = .outside ∧ s.Finished e l')
    (hstage : l.stage = .made) (hsub : l.sub = none)
    (hawake : l.stopped = false ∧ (l.granted = true → l.renewal ≠ .done))
    (hholder : l.granted = false → holder = some s.next)
    (hkeep : ∀ e, s.holder = some e → holder = some e) :
    ({ s.add l with holder := holder } : LeaseManager T).Kept := by
  have hnew : ∀ {e l'}, s.objects e = some l' → (s.add l).objects e = some l' := by
    intro e l' hl'
    rw [objects_add, if_neg (Nat.ne_of_lt (h.lease e l' hl').bounded), hl']
  have hcases : ∀ {e l'}, (s.add l).objects e = some l' →
      e = s.next ∧ l' = l ∨ s.objects e = some l' := by
    intro e l' hl'
    rw [objects_add] at hl'
    split at hl'
    next he => exact .inl ⟨he, (Option.some.inj hl').symm⟩
    · exact .inr hl'
  refine ⟨h.sound, ?_, ?_, ?_, ?_, ?_⟩
  · intro id e hentry
    obtain ⟨l', hl', hid, hinside⟩ := h.table id e hentry
    exact ⟨l', hnew hl', hid, hinside⟩
  · intro e l' hl'
    rcases hcases hl' with ⟨rfl, rfl⟩ | hold
    · refine ⟨Nat.lt_succ_self _, fun _ => hsub, ?_, fun _ => hholder, fun _ => hawake, ?_, ?_, ?_⟩
      · intro hinside
        cases hstage.symm.trans hinside
      · intro ch hch
        cases hsub.symm.trans hch
      · intro _ ch hch
        cases hsub.symm.trans hch
      · intro _ ch hch
        cases hsub.symm.trans hch
    · exact (h.lease e l' hold).congr (Nat.le_succ _) (fun _ hl => hl) (hkeep e)
        rfl rfl
  · intro e₁ e₂ l₁ l₂ ch h₁ h₂ hsub₁ hsub₂
    rcases hcases h₁ with ⟨rfl, rfl⟩ | hold₁
    · cases hsub.symm.trans hsub₁
    · rcases hcases h₂ with ⟨rfl, rfl⟩ | hold₂
      · cases hsub.symm.trans hsub₂
      · exact h.apart e₁ e₂ l₁ l₂ ch hold₁ hold₂ hsub₁ hsub₂
  · intro e₁ e₂ l₁ l₂ h₁ h₂ hlive hid hne
    rcases hcases h₁ with ⟨rfl, rfl⟩ | hold₁
    · rcases hcases h₂ with ⟨rfl, rfl⟩ | hold₂
      · exact absurd rfl hne
      · exact hothers e₂ l₂ hold₂ hid
    · rcases hcases h₂ with ⟨rfl, rfl⟩ | hold₂
      · exact absurd (hothers e₁ l₁ hold₁ hid.symm).1 hlive
      · exact h.alone e₁ e₂ l₁ l₂ hold₁ hold₂ hlive hid hne
  · intro r hr
    exact (h.caused r hr).mono fun e l' hl' => ⟨l', hnew hl', rfl, id⟩

theorem ne_of_entry {e' : ℕ} (hl : s.objects e = some l) (hstage : l.stage ≠ .inside)
    (hentry : s.leases id = some e') : e' ≠ e := by
  rintro rfl
  obtain ⟨l', hl', -, hinside⟩ := h.table id e' hentry
  obtain rfl := Option.mem_unique hl hl'
  exact hstage hinside

theorem subscribed (hl : s.objects e = some l) (hmade : l.stage = .made)
    (sub : Option ℕ) (watching : Bool) (hf : f l = { l with
      sub := sub, watching := watching, stage := .subscribed })
    (hsub : ∀ ch, sub = some ch → (∀ e' l₀, s.objects e' = some l₀ → l₀.sub ≠ some ch) ∧
        ch < s.net.bus.nextChan ∧ ch ∈ s.net.bus.subs (leaseKey l.id) ∧
        (s.net.bus.chans ch).buffer = none) :
    (s.modify e f).Kept := by
  have hlease := h.lease e l hl
  have hlive : l.Live := fun hout => by cases hmade.symm.trans hout
  have hout : l.stage ≠ .inside := fun hinside => by cases hmade.symm.trans hinside
  refine h.change hl (objects_modify hl f) rfl ?_ (fun _ => hlive)
    (fun hout => absurd hout hlive) ?_ h.sound ?_ ?_ ?_
  · rw [hf]
  · rw [hf]
    exact fun ch hch => .inr (hsub ch hch).1
  · exact fun id e' hentry => .inl ⟨hentry, h.ne_of_entry hl hout hentry⟩
  · rw [hf]
    exact {
      bounded := hlease.bounded
      made := fun hstage => by cases hstage
      inside := fun hstage => by cases hstage
      held := fun _ => hlease.held (.inl hmade)
      awake := fun _ => hlease.awake hlive
      sub_lt := fun ch hch => (hsub ch hch).2.1
      listens := fun _ ch hch => (hsub ch hch).2.2.1
      noted := fun _ ch hch hbuffer => by
        rw [LeaseManager.modify, (hsub ch hch).2.2.2] at hbuffer
        cases hbuffer }
  · exact fun e' l₀ _ h₀ => (h.lease e' l₀ h₀).same rfl rfl rfl rfl rfl

theorem insert (hl : s.objects e = some l) (hstage : l.stage = .subscribed)
    (hholder : s.holder = if l.granted then none else some e) :
    ((s.modify e fun l => { l with stage := .inside }).enter e l.id).Kept := by
  have hlease := h.lease e l hl
  have hlive : l.Live := fun hout => by cases hstage.symm.trans hout
  have hout : l.stage ≠ .inside := fun hinside => by cases hstage.symm.trans hinside
  refine h.change hl (objects_modify hl _) rfl rfl (fun _ => hlive)
    (fun hout => absurd hout hlive) (fun ch hch => .inl hch) h.sound ?_ ?_ ?_
  · intro id e' hentry
    rw [leases_enter] at hentry
    split at hentry
    next hid => exact .inr ⟨(Option.some.inj hentry).symm, hid, rfl⟩
    · exact .inl ⟨hentry, h.ne_of_entry hl hout hentry⟩
  · exact {
      bounded := hlease.bounded
      made := fun hstage => by cases hstage
      inside := fun _ => (leases_enter ..).trans (if_pos rfl)
      held := fun hstage => by rcases hstage with hstage | hstage <;> cases hstage
      awake := fun _ => hlease.awake hlive
      sub_lt := hlease.sub_lt
      listens := fun _ => hlease.listens hlive
      noted := fun _ ch hch hbuffer => by exact absurd (hlease.noted hlive ch hch hbuffer).1 hout }
  · intro e' l₀ hne h₀
    refine (h.lease e' l₀ h₀).congr (Nat.le_refl _) ?_ ?_ rfl rfl
    · -- a lease of the same id that is inside would be the only one
      intro hinside hentry
      have hid : l₀.id ≠ l.id := fun hid => by
        have hlive₀ : l₀.Live := fun hout => by cases hinside.symm.trans hout
        exact hlive (h.alone e' e l₀ l h₀ hl hlive₀ hid.symm hne.symm).1
      rw [leases_enter, if_neg hid]
      exact hentry
    · -- `Attach` holds the mutex for one lease only
      intro hheld
      rw [hholder] at hheld
      split at hheld
      · cases hheld
      · exact absurd (Option.some.inj hheld).symm hne

theorem remove (hentry : s.leases id = some e) :
    ((s.modify e fun l => { l with stage := .outside }).delete id).Kept := by
  obtain ⟨l, hl, rfl, hstage⟩ := h.table id e hentry
  have hlease := h.lease e l hl
  have hlive : l.Live := fun hout => by cases hstage.symm.trans hout
  refine h.change hl (objects_modify hl _) rfl rfl (fun _ => hlive)
    (fun hout => absurd hout hlive) (fun ch hch => .inl hch) h.sound ?_ ?_ ?_
  · intro id e' hentry'
    rw [leases_delete] at hentry'
    split at hentry'
    · cases hentry'
    next hid =>
      refine .inl ⟨hentry', ?_⟩
      rintro rfl
      obtain ⟨l', hl', hid', -⟩ := h.table id e' hentry'
      obtain rfl := Option.mem_unique hl hl'
      exact hid hid'.symm
  · exact {
      bounded := hlease.bounded
      made := fun hstage => by cases hstage
      inside := fun hstage => by cases hstage
      held := fun hstage => by rcases hstage with hstage | hstage <;> cases hstage
      awake := fun hlive => absurd rfl hlive
      sub_lt := hlease.sub_lt
      listens := fun hlive => absurd rfl hlive
      noted := fun hlive => absurd rfl hlive }
  · intro e' l₀ hne h₀
    refine (h.lease e' l₀ h₀).congr (Nat.le_refl _) ?_ (fun he => he) rfl rfl
    intro _ hentry₀
    have hid : l₀.id ≠ l.id := fun hid => by
      rw [hid, hentry] at hentry₀
      exact hne (Option.some.inj hentry₀).symm
    rw [leases_delete, if_neg hid]
    exact hentry₀

theorem withCache (cache : Cache T) : ({ s with cache := cache } : LeaseManager T).Kept where
  sound := h.sound
  table := h.table
  lease e l hl := (h.lease e l hl).same rfl rfl rfl rfl rfl
  apart := h.apart
  alone := h.alone
  caused := h.caused

theorem unsubscribe (hl : s.objects e = some l) (hout : l.stage = .outside)
    (hsub : l.sub = some ch) {key : SyncBus.Key}
    (hnet : SyncBus.System.step s.net (.unsubscribe key ch) = some net) :
    (s.heard net).Kept := by
  refine h.heard (fun e' l' ch' hl' hlive hsub' heq => ?_) (fun _ _ _ _ _ _ ha => by cases ha) hnet
  obtain ⟨-, rfl⟩ := SyncBus.Action.unsubscribe.inj heq
  obtain rfl := h.apart e e' l l' ch hl hl' hsub hsub'
  obtain rfl := Option.mem_unique hl hl'
  exact hlive hout

theorem heard_of_ne {a : SyncBus.Action} (hunsubscribe : ∀ key ch, a ≠ .unsubscribe key ch)
    (hadvance : ∀ i, a ≠ .advance i)
    (hnet : SyncBus.System.step s.net a = some net) : (s.heard net).Kept :=
  h.heard (fun _ _ _ _ _ _ => hunsubscribe _ _) (fun i _ _ _ _ _ ha => absurd ha (hadvance i)) hnet

theorem next (hr : s.revocations[i]? = some r) (hphase : phase ≠ .lookup)
    (hremoved : phase.removed = r.phase.removed ∨ phase.removed = none) :
    (s.goOn i r phase).Kept := by
  refine h.goOn hphase ⟨fun hlookup => absurd hlookup hphase, fun e he => ?_⟩
  rcases hremoved with hsame | hnone
  · exact (h.caused r (List.mem_of_getElem? hr)).2 e (hsame.symm.trans he)
  · cases hnone.symm.trans he

theorem stated (hr : r ∈ s.revocations)
    (hphase : r.phase = .lookup) (hentry : s.leases r.id = some e) :
    r.cause.Stated e := by
  obtain ⟨l, hl, hid, hinside⟩ := h.table r.id e hentry
  have hlive : l.Live := fun hout => by cases hinside.symm.trans hout
  cases hcause : r.cause.lease with
  | none =>
    cases hc : r.cause with
    | call => trivial
    | timer e' | event e' entry | closed e' =>
      rw [hc] at hcause
      cases hcause
  | some e' =>
    obtain ⟨l', hl', hid', hstated⟩ := (h.caused r hr).1 hphase e' hcause
    by_cases he : e' = e
    · subst he
      obtain rfl := Option.mem_unique hl hl'
      exact hstated hlive
    · have hfinished := (h.alone e e' l l' hl hl' hlive (hid'.trans hid.symm) he).2
      exact absurd hcause (hfinished.2 r hr hphase)

theorem outside_of_finished (hfree : s.holder = none) (hl : s.objects e = some l)
    (hentry : s.leases l.id = none) (hquiet : l.Quiet) : l.stage = .outside := by
  by_contra hlive
  have hlease := h.lease e l hl
  cases hgranted : l.granted with
  | true => exact (hlease.awake hlive).2 hgranted hquiet.2.1
  | false =>
    have hwaits : ¬(l.stage = .made ∨ l.stage = .subscribed) := by
      intro hstage
      cases hfree.symm.trans (hlease.held hstage hgranted)
    cases hstage : l.stage with
    | made => exact hwaits (.inl hstage)
    | subscribed => exact hwaits (.inr hstage)
    | inside => cases hentry.symm.trans (hlease.inside hstage)
    | outside => exact hlive hstage

theorem connect (hl : s.objects e = some l) (hmade : l.stage = .made)
    (hnet : SyncBus.System.step s.net (.subscribe (leaseKey l.id)) = some net) :
    ((s.heard net).modify e fun l => { l with
      sub := some s.net.bus.nextChan
      watching := true
      stage := .subscribed }).Kept := by
  have hheard : (s.heard net).Kept := h.heard_of_ne (by simp) (by simp) hnet
  refine hheard.subscribed hl hmade _ _ rfl fun ch hch => ?_
  cases hch
  refine ⟨fun e' l₀ h₀ hsub => ?_, ?_⟩
  · exact Nat.lt_irrefl _ ((h.lease e' l₀ h₀).sub_lt _ hsub)
  · obtain ⟨-, hnet⟩ := Option.ite_none_right_eq_some.mp hnet
    cases hnet
    simp [LeaseManager.heard, SyncBus.Bus.subscribe, SyncBus.Channel.new]

theorem wake (hl : s.objects e = some l) (hsub : l.sub = some ch) (hwatching : l.watching = true)
    (hbuffer : (s.net.bus.chans ch).buffer.isSome)
    (hnet : SyncBus.System.step s.net (.receive ch) = some net) :
    (((s.heard net).spawn l.id false (.event e (s.sent ch l.id))).modify e
      fun l => { l with watching := false }).Kept := by
  have hheard : (s.heard net).Kept := h.heard_of_ne (by simp) (by simp) hnet
  refine (hheard.spawn_of hl rfl ?_ ?_).modify hl ?_
  · exact fun hlive => ((h.lease e l hl).noted hlive ch hsub hbuffer).2
  · intro hquiet
    cases hwatching.symm.trans hquiet.1
  · exact ⟨rfl, rfl, rfl, rfl, fun h => ⟨rfl, h.2⟩, fun _ h => h⟩

theorem wake_closed (hl : s.objects e = some l) (hsub : l.sub = some ch)
    (hwatching : l.watching = true) (hclosed : (s.net.bus.chans ch).closed = true) :
    ((s.spawn l.id false (.closed e)).modify e fun l => { l with watching := false }).Kept := by
  refine (h.spawn_of hl rfl ?_ ?_).modify hl ?_
  · intro hlive
    have hmem := (h.lease e l hl).listens hlive ch hsub
    cases hclosed.symm.trans (h.sound.bus.opened _ ch hmem).2.1
  · intro hquiet
    cases hwatching.symm.trans hquiet.1
  · exact ⟨rfl, rfl, rfl, rfl, fun h => ⟨rfl, h.2⟩, fun _ h => h⟩

theorem modify_removed (hr : s.revocations[i]? = some r)
    (he : r.phase.removed = some e) (hphase : phase.removed = some e)
    (hf : ∀ l : Lease, l.stage = .outside → l.Follows (f l)) :
    ((s.modify e f).goOn i r phase).Kept := by
  obtain ⟨-, l, hl, hout⟩ := (h.caused r (List.mem_of_getElem? hr)).2 e he
  refine (h.modify hl (hf l hout)).next hr ?_ (.inl (hphase.trans he.symm))
  rintro rfl
  cases hphase

end Kept

end LeaseManager

end GoWarp.Core
