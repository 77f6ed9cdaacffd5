import GoWarp.Core.LeaseInvariant

/-!
# Why a lease ends

A lease should leave the table for one of three reasons: a call of
`RevokeLease` for its id, an event that was published for its id while it was
in the table, or its own expiry timer.

Two things break this.  When the context of a `Grant` ends, the bus closes the
channel of the lease, and the goroutine that waits on it takes that for a
revocation.  And a goroutine that was already on its way to `revoke` when its
lease was removed removes the placeholder that a later `Attach` made under the
same id.  In a run without these every lease ends for a stated reason.
-/

namespace GoWarp.Core

open Support

variable {T : Type}

namespace LeaseManager

/-- A step removes a lease from the table only as the lookup of a `revoke` with
a stated reason, and touches the cache only in such a `revoke`. -/
def Stated (s : LeaseManager T) (a : Action) : Prop :=
  ∀ s', s.step a = some s' → (∀ id e, s.leases id = some e → s'.leases id ≠ some e →
      ∃ i r, a = .advance i ∧ s.revocations[i]? = some r ∧ r.id = id ∧ r.cause.Stated e) ∧
    (s'.cache ≠ s.cache → ∃ i r e, a = .advance i ∧
      s.revocations[i]? = some r ∧ r.phase.removed = some e ∧
      r.cause.Stated e)

/-- The channel that a call sends to next. -/
def target (call : SyncBus.Call) : Option ℕ :=
  match call.phase with
  | .sending (ch :: _) => some ch
  | _ => none

/-- The context of a `Grant` does not end before the lease has left the table.
A placeholder is made only when the earlier leases of its id are finished.
Nobody sends to the channel of a lease that is not in the table yet. -/
def Orderly (s : LeaseManager T) : Action → Prop
  | .cancel e => ∀ l ∈ s.objects e, l.stage = .outside
  | .attach id _ => s.leases id = none → ∀ e < s.next, ∀ l ∈ s.objects e,
      l.id = id → s.Finished e l
  | .net (.advance i) => ∀ ch ∈ (s.net.calls i).bind target, ∀ e < s.next,
      ∀ l ∈ s.objects e, l.sub = some ch → l.stage = .inside ∨ l.stage = .outside
  | _ => True

section Decidable

variable (s : LeaseManager T)

instance (l : Lease) : Decidable l.Quiet := inferInstanceAs (Decidable (_ ∧ _ ∧ _))

instance (e : ℕ) (l : Lease) : Decidable (s.Finished e l) :=
  inferInstanceAs (Decidable (_ ∧ ∀ r ∈ s.revocations, _))

instance : DecidablePred s.Orderly
  | .cancel e =>
    inferInstanceAs (Decidable (∀ l ∈ s.objects e, l.stage = .outside))
  | .attach id _ => inferInstanceAs (Decidable (s.leases id = none →
      ∀ e < s.next, ∀ l ∈ s.objects e, l.id = id → s.Finished e l))
  | .net (.advance i) => inferInstanceAs (Decidable
      (∀ ch ∈ (s.net.calls i).bind target, ∀ e < s.next, ∀ l ∈ s.objects e,
        l.sub = some ch → l.stage = .inside ∨ l.stage = .outside))
  | .net (.call ..) | .net (.cancel _) | .net (.abort _)
  | .net (.subscribe _) | .net (.unsubscribe ..) | .net (.receive _)
  | .grant _ | .subscribe .. | .insert _ | .tick _ | .renew _
  | .stopRenewing _ | .fire _ | .wake _ | .stopWatching _ | .revoke _
  | .advance _ | .publish .. | .refuse _ => isTrue trivial

end Decidable

/-! ## Steps -/

namespace Kept

variable {s s' : LeaseManager T}

theorem net (h : s.Kept) {a : SyncBus.Action} (ha : s.Orderly (.net a))
    (hforeign : s.Foreign a) {net : SyncBus.System}
    (hnet : SyncBus.System.step s.net a = some net) : (s.heard net).Kept := by
  refine h.heard (fun e l ch hl _ hsub heq => ?_) ?_ hnet
  · subst heq
    refine hforeign e (h.lease e l hl).bounded ?_
    rw [hl, Option.bind_some, hsub]
  · rintro i call e l ch rest rfl hcall hphase hl hlive hsub
    have htarget : ch ∈ (s.net.calls i).bind target := by
      rw [hcall, Option.bind_some, target, hphase]
      rfl
    exact (ha ch htarget e (h.lease e l hl).bounded l hl hsub).resolve_right hlive

theorem step (h : s.Kept) {a : Action} (ha : s.Orderly a)
    (hstep : s.step a = some s') : s'.Kept := by
  cases moves_of_step hstep with
  | granted id hfresh =>
    refine h.add (fun e l' hl' hid => ?_) rfl rfl ⟨rfl, fun _ => ?_⟩
      (fun hgranted => ?_) fun e he => he
    · refine absurd ?_ (hfresh e (h.lease e l' hl').bounded)
      rw [hl', Option.map_some, hid]
      rfl
    · simp [Lease.grant]
    · cases hgranted
  | attached id key e hentry =>
    obtain ⟨l, hl, -, -⟩ := h.table id e hentry
    exact h.modify hl ⟨rfl, rfl, rfl, rfl, fun h => h, fun _ h => h⟩
  | placed id key hfree hentry =>
    refine h.add (fun e l' hl' hid => ?_) rfl rfl ⟨rfl, fun hgranted => ?_⟩
      (fun _ => rfl) fun e he => ?_
    · have hfinished := ha hentry e (h.lease e l' hl').bounded l' hl' hid
      refine ⟨h.outside_of_finished hfree hl' ?_ hfinished.1, hfinished⟩
      rw [hid]
      exact hentry
    · cases hgranted
    · cases hfree.symm.trans he
  | subscribed e l net hl hmade hnet => exact h.connect hl hmade hnet
  | failed e l hl hmade =>
    refine h.subscribed hl hmade none l.watching ?_ fun ch hch => ?_
    · rw [← (h.lease e l hl).made hmade]
    · cases hch
  | inserted e l hl hstage hholder => exact h.insert hl hstage hholder
  | ticked e l hl hwaiting =>
    refine h.modify hl ⟨rfl, rfl, rfl, rfl, fun hquiet => ?_, fun _ hawake => ?_⟩
    · cases hwaiting.symm.trans hquiet.2.1
    · exact ⟨hawake.1, fun _ => by simp⟩
  | renewed e l hl hticked =>
    refine h.modify hl ⟨rfl, rfl, rfl, rfl, fun hquiet => ?_, fun _ hawake => ?_⟩
    · cases hticked.symm.trans hquiet.2.1
    · exact ⟨hawake.1, fun _ => by simp⟩
  | renewalStopped e l hl hstopped =>
    refine h.modify hl ⟨rfl, rfl, rfl, rfl, fun hquiet => ?_, fun _ hawake => ?_⟩
    · exact ⟨hquiet.1, rfl, hquiet.2.2⟩
    · cases hstopped.symm.trans hawake.1
  | fired e l hl htimer =>
    have hbusy : ¬l.Quiet := fun hquiet => by cases htimer.symm.trans hquiet.2.2
    have hspawn : (s.spawn l.id true (.timer e)).Kept := h.spawn_of hl rfl (fun _ => rfl) hbusy
    exact hspawn.modify hl ⟨rfl, rfl, rfl, rfl, fun h => ⟨h.1, h.2.1, rfl⟩, fun _ h => h⟩
  | woken e l ch net hl hsub hwatching hbuffer hnet =>
    exact h.wake hl hsub hwatching hbuffer hnet
  | closed e l ch hl hsub hwatching hclosed =>
    exact h.wake_closed hl hsub hwatching hclosed
  | watchStopped e l hl =>
    exact h.modify hl ⟨rfl, rfl, rfl, rfl, fun h => ⟨rfl, h.2⟩, fun _ h => h⟩
  | canceled e l ch net hl hsub hnet =>
    exact h.unsubscribe hl (ha l hl) hsub hnet
  | called id =>
    refine h.spawn ⟨fun _ e he => ?_, fun e he => ?_⟩ fun e l he => ?_
    · cases he
    · cases he
    · cases he
  | missed i r hr hphase hentry | publishRefused i r e hr hphase =>
    exact h.next hr (by simp) (.inr rfl)
  | removed i r e hr hphase hentry =>
    refine (h.remove hentry).goOn (by simp) ⟨fun hlookup => ?_, fun e' he' => ?_⟩
    · cases hlookup
    · cases he'
      obtain ⟨l, hl, -⟩ := h.table r.id e hentry
      have hstated := h.stated (List.mem_of_getElem? hr) hphase hentry
      exact ⟨hstated, _, (objects_modify hl _ e).trans (if_pos rfl), rfl⟩
  | timerStopped i r e hr hphase =>
    exact h.modify_removed hr (hphase ▸ rfl) rfl fun l _ =>
      ⟨rfl, rfl, rfl, rfl, fun h => ⟨h.1, h.2.1, rfl⟩, fun _ h => h⟩
  | tickerStopped i r e hr hphase =>
    exact h.modify_removed hr (hphase ▸ rfl) rfl fun l _ =>
      ⟨rfl, rfl, rfl, rfl, fun h => h, fun _ h => h⟩
  | stopClosed i r e hr hphase =>
    exact h.modify_removed hr (hphase ▸ rfl) rfl fun l hout =>
      ⟨rfl, rfl, rfl, rfl, fun h => h, fun hlive => absurd hout hlive⟩
  | notSubscribed i r e l hr hphase | keyRefused i r e key keys hr hphase =>
    exact h.next hr (by simp) (.inl (hphase ▸ rfl))
  | unsubscribed i r e l ch net hr hphase hl hsub hnet =>
    obtain ⟨-, l', hl', hout⟩ := (h.caused r (List.mem_of_getElem? hr)).2 e (hphase ▸ rfl)
    obtain rfl := Option.mem_unique hl hl'
    exact (h.unsubscribe hl hout hsub hnet).next hr (by simp) (.inl (hphase ▸ rfl))
  | invalidated i r e key keys hr hphase =>
    exact (h.withCache _).next hr (by simp) (.inl (hphase ▸ rfl))
  | invalidatedAll i r e hr hphase =>
    cases r.publish with
    | true => exact h.next hr (by simp) (.inl (hphase ▸ rfl))
    | false => exact h.next hr (by simp) (.inr rfl)
  | published i r e call net hr hphase hnet =>
    have hheard : (s.heard net).Kept := h.heard_of_ne (by simp) (by simp) hnet
    exact hheard.next hr (by simp) (.inr rfl)
  | net a net hforeign hnet => exact h.net ha hforeign hnet

theorem stated_of_step (h : s.Kept) (a : Action) : s.Stated a := by
  intro s' hstep
  cases moves_of_step hstep with
  | inserted e l hl hstage hholder =>
    refine ⟨fun id e' hentry hne => ?_, fun hne => absurd rfl hne⟩
    rw [leases_enter] at hne
    by_cases hid : id = l.id
    · -- the lease that was there would be the only one of its id
      have hlive : l.Live := fun hout => by cases hstage.symm.trans hout
      have hother : e' ≠ e := h.ne_of_entry hl (by simp [hstage]) hentry
      obtain ⟨l', hl', hid', hinside⟩ := h.table id e' hentry
      have hout := (h.alone e e' l l' hl hl' hlive (hid'.trans hid) hother).1
      cases hinside.symm.trans hout
    · rw [if_neg hid] at hne
      exact absurd hentry hne
  | removed i r e hr hphase hentry =>
    refine ⟨fun id e' hentry' hne => ?_, fun hne => absurd rfl hne⟩
    by_cases hid : id = r.id
    · subst hid
      exact ⟨i, r, rfl, hr, rfl, h.stated (List.mem_of_getElem? hr) hphase hentry'⟩
    · refine absurd ?_ hne
      exact ((leases_delete _ r.id id).trans (if_neg hid)).trans hentry'
  | invalidated i r e key keys hr hphase =>
    refine ⟨fun _ _ hentry hne => absurd hentry hne, fun _ => ?_⟩
    have hremoved : r.phase.removed = some e := hphase ▸ rfl
    exact ⟨i, r, e, rfl, hr, hremoved, ((h.caused r (List.mem_of_getElem? hr)).2 e hremoved).1⟩
  | _ => exact ⟨fun _ _ hentry hne => absurd hentry hne, fun hne => absurd rfl hne⟩

end Kept

/-! ## Runs -/

/-- In a run whose steps all meet the condition, every lease that leaves the
table does so for a stated reason. -/
theorem stated_of_orderly (cache : Cache T) {as : List Action}
    (hsteps : (machine T).AllSteps (fun s a => s.Orderly a) (new cache) as) :
    (machine T).AllSteps (fun s a => s.Stated a) (new cache) as :=
  hsteps.of_invariant (fun _ _ _ h ha hstep => h.step ha hstep)
    (fun _ a h _ => h.stated_of_step a) (kept_new cache)

/-- A lease is granted, a key is attached, the lease is revoked, and when its
goroutines have returned a placeholder is made under the same id, which ends by
an event. -/
def reattachSteps : List Action :=
  [.grant "a", .subscribe 0 true, .insert 0, .attach "a" "k", .revoke "a",
    .advance 0, .advance 0, .advance 0, .advance 0, .advance 0, .advance 0,
    .stopWatching 0, .stopRenewing 0, .attach "a" "k", .subscribe 1 true,
    .insert 1, .net (.call 0 .publish "lease:a" []), .net (.advance 0),
    .net (.advance 0), .net (.advance 0), .net (.advance 0), .wake 1,
    .advance 1]

theorem stated_reattachSteps : ((machine ℕ).run (new fun _ => none) reattachSteps).isSome ∧
      (machine ℕ).AllSteps (fun s a => s.Stated a) (new fun _ => none)
        reattachSteps :=
  ⟨by decide, stated_of_orderly _ (by decide)⟩

/-- The context of the `Grant` ends: the channel of the lease is closed, and
the goroutine that waits on it wakes up. -/
def cancelSteps : List Action :=
  [.grant "a", .subscribe 0 true, .insert 0, .attach "a" "k", .cancel 0, .wake 0]

/-- The lease is removed, though nobody revoked it and its timer has not
fired. -/
theorem ends_on_cancel : ∃ s s' : LeaseManager ℕ,
    (machine ℕ).run (new fun _ => none) cancelSteps = some s ∧
      s.step (.advance 0) = some s' ∧ s.leases "a" = some 0 ∧
      s'.leases "a" = none ∧
      s.revocations = [⟨"a", false, .closed 0, .lookup⟩] ∧
      ¬s.Stated (.advance 0) := by
  refine ⟨_, _, rfl, rfl, rfl, rfl, rfl, fun h => ?_⟩
  obtain ⟨i, r, hi, hr, -, hstated⟩ := (h _ rfl).1 "a" 0 rfl (by decide)
  obtain rfl := Action.advance.inj hi
  cases hr
  exact hstated

end LeaseManager

end GoWarp.Core
