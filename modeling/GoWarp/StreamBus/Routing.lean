import GoWarp.StreamBus.Table

/-!
# Routing is exact

In every state that operations lead to, the table holds exactly the
subscriptions that are open, so that a frame is sent to those that ask for its
topic and to no other.
-/

namespace GoWarp.StreamBus

open Support

namespace InMemory

variable {b b' : InMemory} {op : Op}

theorem step_cases (hb : b.Registered) (h : step b op = some b') : SameTable b b' ∨
      (∃ s, b' = b.takeId.register s ∧ s.id = b.subSeq + 1 ∧ s.closed = false ∧ b.closed = false) ∨
      (∃ id, b' = b.closeSub id) ∨
      ∃ order, IsOrderOf order b.registered ∧ b' = b.close order := by
  cases op with
  | publish ctxDone now frame order =>
    rw [step] at h
    split at h
    · cases h
      exact .inl (sameTable_publish hb ctxDone now frame order)
    · cases h
  | subscribe ctxDone o =>
    cases h
    rcases b.subscribe_cases ctxDone o with
      ⟨e, heq⟩ | ⟨e, options, heq⟩ | ⟨options, frames, _, hbus, _, heq⟩
    · rw [heq]
      exact .inl (.of_subs rfl (Nat.le_refl _) rfl rfl)
    · have hid := b.sameTable_takeId
      rw [heq]
      exact .inl (hid.trans (sameTable_remove (hb.of_sameTable hid) hb.subs_succ options))
    · have hsame := Subscription.same_preload (Subscription.new (b.subSeq + 1) options) frames
      rw [heq]
      exact .inr (.inl ⟨_, rfl, hsame.id, hsame.closed, hbus⟩)
  | closeSub id =>
    cases h
    exact .inr (.inr (.inl ⟨id, rfl⟩))
  | close order =>
    rw [step] at h
    split at h
    next horder =>
      cases h
      exact .inr (.inr (.inr ⟨order, horder, rfl⟩))
    next => cases h
  | pump id => exact .inl (sameTable_pump hb h)
  | receive id => exact .inl (sameTable_receive hb h)

theorem Registered.step (hb : b.Registered) (h : InMemory.step b op = some b') : b'.Registered := by
  rcases step_cases hb h with
    hsame | ⟨s, rfl, hid, hopen, hbus⟩ | ⟨id, rfl⟩ | ⟨order, horder, rfl⟩
  · exact hb.of_sameTable hsame
  · refine (hb.of_sameTable b.sameTable_takeId).register ?_ hid.le hopen hbus
    rw [hid]
    exact hb.subs_succ
  · exact hb.closeSub id
  · exact hb.close horder

theorem closed_step (hb : b.Registered) (h : step b op = some b') (hclosed : b.closed = true) :
    b'.closed = true := by
  rcases step_cases hb h with
    hsame | ⟨s, rfl, _, _, hbus⟩ | ⟨id, rfl⟩ | ⟨order, _, rfl⟩
  · exact hsame.closed.trans hclosed
  · exact absurd (hbus.symm.trans hclosed) Bool.false_ne_true
  · exact (b.closeSub_fields id).2.trans hclosed
  · exact b.closed_close order

theorem isSome_subs_step (hb : b.Registered)
    (h : step b op = some b') {id : ℕ} (hid : (b.subs id).isSome) :
    (b'.subs id).isSome := by
  rcases step_cases hb h with
    hsame | ⟨s, rfl, _⟩ | ⟨id', rfl⟩ | ⟨order, _, rfl⟩
  · obtain ⟨s, hs⟩ := Option.isSome_iff_exists.mp hid
    obtain ⟨s', hs', _⟩ := hsame.forth id s hs
    exact Option.isSome_iff_exists.mpr ⟨s', hs'⟩
  · rw [(subs_register _ _).1, subs_setSub]
    split
    · rfl
    · exact hid
  · rw [subs_closeSub hb.subs_id]
    split
    next heq => rwa [Option.isSome_map, ← heq]
    next => exact hid
  · rw [close]
    split
    · exact hid
    · change ((order.foldl closeSub b.emptied).subs id).isSome
      rw [subs_foldl_closeSub order hb.emptied_id]
      split
      · rwa [Option.isSome_map]
      · exact hid

/-- The identifier an operation returns, if it is a `Subscribe` that
succeeds. -/
def returnedBy (b : InMemory) : Op → Option ℕ
  | .subscribe ctxDone o => (b.subscribe ctxDone o).1.toOption
  | _ => none

/-- The identifiers that `Subscribe` returns in a run. -/
def returned (b : InMemory) (ops : List Op) : List ℕ := step.emitted returnedBy b ops

theorem isSome_subs_of_returnedBy
    (h : step b op = some b') {id : ℕ} (hid : b.returnedBy op = some id) :
    (b'.subs id).isSome := by
  cases op with
  | subscribe ctxDone o =>
    cases h
    rw [returnedBy] at hid
    rcases b.subscribe_cases ctxDone o with
      ⟨e, heq⟩ | ⟨e, options, heq⟩ | ⟨options, frames, _, _, _, heq⟩
    · rw [heq] at hid
      cases hid
    · rw [heq] at hid
      cases hid
    · have hsame := Subscription.same_preload (Subscription.new (b.subSeq + 1) options) frames
      have hnew : ((Subscription.new (b.subSeq + 1) options).preload
          frames).id = b.subSeq + 1 := hsame.id
      rw [heq] at hid ⊢
      cases hid
      dsimp only
      rw [(subs_register _ _).1, subs_setSub, if_pos hnew.symm]
      rfl
  | publish | closeSub | close | pump | receive => cases hid

section

variable (hb : b.Registered)
include hb

theorem isSome_subs_of_returned {ops : List Op} (hrun : step.run b ops = some b') {id : ℕ}
    (hid : id ∈ b.returned ops) : (b'.subs id).isSome := by
  have hend := step.run_history returnedBy
    (I := fun b h => b.Registered ∧ ∀ id ∈ h, (b.subs id).isSome)
    (h := []) ?_ hrun ⟨hb, fun id hid => nomatch hid⟩
  · exact hend.2 id hid
  · rintro b h op b' ⟨hb, hall⟩ hstep
    refine ⟨hb.step hstep, ?_⟩
    intro id hid
    rcases List.mem_append.mp hid with hid | hid
    · exact isSome_subs_step hb hstep (hall id hid)
    · exact isSome_subs_of_returnedBy hstep (Option.mem_toList.mp hid)

theorem closed_of_mem {ops : List Op} (hrun : step.run b ops = some b')
    (hclose : b.closed = true ∨ ∃ order, Op.close order ∈ ops) :
    b'.closed = true := by
  induction ops generalizing b with
  | nil =>
    cases hrun
    rcases hclose with hclosed | ⟨order, hmem⟩
    · exact hclosed
    · cases hmem
  | cons op rest ih =>
    obtain ⟨b₁, hstep, hrest⟩ := (Machine.run_cons _).mp hrun
    apply ih (hb.step hstep) hrest
    rcases hclose with hclosed | ⟨order, hmem⟩
    · exact .inl (closed_step hb hstep hclosed)
    · rcases List.mem_cons.mp hmem with heq | hmem
      · subst heq
        rw [step] at hstep
        split at hstep
        · cases hstep
          exact .inl (b.closed_close order)
        · cases hstep
      · exact .inr ⟨order, hmem⟩

/-! ## Routing -/

theorem Registered.mem_targets_iff (topic : Bytes) (id : ℕ) :
    id ∈ b.targets topic ↔ ∃ s, b.subs id = some s ∧ s.closed = false ∧
        s.options.Matches topic := by
  rw [InMemory.mem_targets_iff]
  constructor
  · rintro (hmem | ⟨path, _, hpre, hmem⟩)
    · obtain ⟨s, hs, hopen, hp, htopic⟩ := (hb.mem_ids _ _ id).mp hmem
      refine ⟨s, hs, hopen, ?_⟩
      rw [SubscribeOptions.Matches, hp, if_neg Bool.false_ne_true]
      exact htopic
    · obtain ⟨s, hs, hopen, hp, htopic⟩ := (hb.mem_ids _ _ id).mp hmem
      refine ⟨s, hs, hopen, ?_⟩
      rw [SubscribeOptions.Matches, hp, if_pos rfl, htopic]
      exact hpre
  · rintro ⟨s, hs, hopen, hmatch⟩
    rw [SubscribeOptions.Matches] at hmatch
    rcases hp : s.options.isPrefix with _ | _
    · rw [hp, if_neg Bool.false_ne_true] at hmatch
      exact .inl ((hb.mem_ids _ _ id).mpr ⟨s, hs, hopen, hp, hmatch⟩)
    · rw [hp, if_pos rfl] at hmatch
      exact .inr ⟨s.options.topic, s.options.topic_ne, hmatch,
        (hb.mem_ids _ _ id).mpr ⟨s, hs, hopen, hp, rfl⟩⟩

theorem Registered.targets_closeSub (id : ℕ) (topic : Bytes) :
    (b.closeSub id).targets topic = (b.targets topic).erase id := by
  ext id'
  rw [Finset.mem_erase, InMemory.mem_targets_iff, InMemory.mem_targets_iff, mem_ids_closeSub hb]
  simp only [mem_ids_closeSub hb]
  tauto

theorem Registered.targets_of_closed
    (hclosed : b.closed = true) (topic : Bytes) : b.targets topic = ∅ := by
  apply Finset.eq_empty_of_forall_notMem
  intro id hmem
  obtain ⟨s, hs, hopen, _⟩ := (hb.mem_targets_iff topic id).mp hmem
  rw [hb.closed hclosed id s hs] at hopen
  cases hopen

end

theorem registered_run {config : Config} {ops : List Op}
    (hrun : step.run (new config) ops = some b) : b.Registered :=
  step.run_invariant (fun _ _ _ hb h => hb.step h) hrun (registered_new config)

/-- Routing is exact: in every state that operations lead to, the targets of a
frame are the open subscriptions that ask for its topic; a `Publish` that meets
no error offers the frame once to each of them and to no other subscription;
closing a subscription takes that one and no other out of the targets; and
after the bus is closed everything `Subscribe` ever returned is closed and
nothing is sent anywhere. -/
theorem targets_exact (config : Config) (ops : List Op) {b : InMemory}
    (hrun : step.run (new config) ops = some b) :
    (∀ topic id, id ∈ b.targets topic ↔ ∃ s, b.subs id = some s ∧ s.closed = false ∧
        s.options.Matches topic) ∧
    (∀ ctxDone now frame order, IsOrderOf order (b.targets frame.topic) →
      (b.publish ctxDone now frame order).1.2 = none →
      ∀ id, (b.publish ctxDone now frame order).2.subs id =
        if id ∈ b.targets frame.topic then
          (b.subs id).map (·.offered (b.stamp now frame))
        else
          b.subs id) ∧
    (∀ topic id, (b.closeSub id).targets topic = (b.targets topic).erase id) ∧
    ∀ order, Op.close order ∈ ops → (∀ id ∈ (new config).returned ops,
        ∃ s, b.subs id = some s ∧ s.closed = true) ∧
      ∀ topic, b.targets topic = ∅ := by
  have hb := registered_run hrun
  refine ⟨hb.mem_targets_iff, fun _ _ _ _ => subs_publish hb,
    fun topic id => hb.targets_closeSub id topic, ?_⟩
  intro order hmem
  have hclosed := closed_of_mem (registered_new config) hrun (.inr ⟨order, hmem⟩)
  refine ⟨?_, hb.targets_of_closed hclosed⟩
  intro id hid
  have hsome := isSome_subs_of_returned (registered_new config) hrun hid
  obtain ⟨s, hs⟩ := Option.isSome_iff_exists.mp hsome
  exact ⟨s, hs, hb.closed hclosed id s hs⟩

/-- A run of the bus in which a frame reaches an exact and a prefix
subscription, and the bus is then closed. -/
def sampleOps : List Op :=
  [.subscribe false ⟨[1, 2], false, 1, block, 0, 0⟩, .subscribe false ⟨[1], true, 1, block, 0, 0⟩,
    .publish false Time.zero ⟨0, Time.zero, [1, 2], none, reliable, 1⟩ [2, 1],
    .closeSub 1,
    .close [2]]

theorem targets_exact_sampleOps : ∃ b, step.run (new ⟨0, 0, 0, 0, false⟩) sampleOps = some b ∧
      (∀ id ∈ (new ⟨0, 0, 0, 0, false⟩).returned sampleOps,
        ∃ s, b.subs id = some s ∧ s.closed = true) ∧
      ∀ topic, b.targets topic = ∅ := by
  have hclose : Op.close [2] ∈ sampleOps := by simp [sampleOps]
  exact ⟨_, rfl, (targets_exact _ sampleOps rfl).2.2.2 [2] hclose⟩

end InMemory

end GoWarp.StreamBus
