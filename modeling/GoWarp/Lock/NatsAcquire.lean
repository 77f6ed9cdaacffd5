import GoWarp.Lock.Nats

/-!
# Waiting for a lock of the NATS locker

`Acquire` tries to take the lock.  If that is refused, it creates a watch for the
key, which reports the updates that are committed from then on, and waits for the
report of a deletion.

The attempt and the creation of the watch are two calls to the backend.  A
release that is committed between the two is not reported: `Acquire` then waits
for a lock that is free.  As long as the key is in the bucket when the watch is
created, its deletion will be reported.

One `Acquire` of an instance runs next to all the other calls of all instances.
-/

namespace GoWarp.Lock

open Support

namespace Nats

/-- `KeyValueOp`. -/
inductive Operation where
  | put
  | delete
  | purge
deriving DecidableEq

inductive AcquireResult where
  | acquired
  | failed
  | canceled
deriving DecidableEq

/-- Where `Acquire` is: at the head of its loop, in `TryLock`, which is a call of
its own, before the watch is created, in the loop over the updates that have been
reported to it, or back from the call. -/
inductive AcquirePlace where
  | loop
  | tryLock (t : ℕ)
  | refused
  | waiting (updates : List (Option Operation))
  | returned (result : AcquireResult)
deriving DecidableEq

structure Acquiring where
  lockers : Lockers Bucket Call
  place : AcquirePlace

inductive AcquireAction where
  /-- Any step of a `TryLock` or `Release`, or of a timer. -/
  | lockers (a : LockersAction)
  /-- `Acquire` calls `TryLock`. -/
  | tryLock (t : ℕ) (token : Token)
  /-- `TryLock` has returned. -/
  | tried
  /-- The watch is created, or that fails. -/
  | watch (fails : Bool)
  /-- An update is taken from the channel of the watcher. -/
  | update
  /-- The channel of the watcher is closed. -/
  | closed
  /-- The context is done. -/
  | cancel
deriving DecidableEq

/-- What a watch reports of a change of the bucket.  A message that expires is not
an update. -/
def report (key : Key) (b b' : Bucket) : List (Option Operation) :=
  if b'.last key = b.last key then []
  else
    match b'.last key with
    | some (some _, _) => [some .put]
    | some (none, _) => [some .delete]
    | none => []

/-- A message expires in the backend. -/
def isExpiry : LockersAction → Bool
  | .expire _ => true
  | _ => false

namespace Acquiring

def new : Acquiring := ⟨.new .empty, .loop⟩

/-- The lockers have taken a step, and the watcher is told of it. -/
def notify (key : Key) (s : Acquiring) (l : Lockers Bucket Call) : Acquiring where
  lockers := l
  place :=
    match s.place with
    | .waiting updates =>
      .waiting (updates ++ report key s.lockers.backend l.backend)
    | place => place

/-- `TryLock` has returned. -/
def tried (s : Acquiring) : Call → Option Acquiring
  | .returned .locked => some { s with place := .returned .acquired }
  | .returned .refused => some { s with place := .refused }
  | .returned .failed => some { s with place := .returned .failed }
  | _ => none

/-- The body of the inner loop. -/
def update (s : Acquiring) (entry : Option Operation)
    (updates : List (Option Operation)) : Acquiring :=
  match entry with
  | none => { s with place := .waiting updates }
  | some .delete => { s with place := .loop }
  | some _ => { s with place := .waiting updates }

/-- `Acquire` of instance `n`, and everything else.  The bucket is created
without a TTL, so that nothing expires in it. -/
def step (key : Key) (n : ℕ) (ttl : ℤ) : Machine Acquiring AcquireAction
  | s, .lockers a =>
    if isExpiry a then none
    else (protocol.step s.lockers a).map (s.notify key)
  | s, .tryLock t token =>
    match s.place with
    | .loop =>
      (protocol.step s.lockers (.tryLock t n key token ttl)).map fun l =>
        ⟨l, .tryLock t⟩
    | _ => none
  | s, .tried =>
    match s.place with
    | .tryLock t => (s.lockers.threads t).bind fun thread => s.tried thread.2
    | _ => none
  | s, .watch fails =>
    match s.place with
    | .refused =>
      some { s with
        place := if fails then .returned .failed else .waiting [] }
    | _ => none
  | s, .update =>
    match s.place with
    | .waiting (entry :: updates) => some (s.update entry updates)
    | _ => none
  | s, .closed =>
    match s.place with
    | .waiting _ => some { s with place := .loop }
    | _ => none
  | s, .cancel =>
    match s.place with
    | .waiting _ => some { s with place := .returned .canceled }
    | _ => none

/-- The key is absent, no update is queued for the watcher, and `Acquire` waits
for one. -/
def Asleep (key : Key) (s : Acquiring) : Prop :=
  s.lockers.backend.get key = none ∧ s.place = .waiting []

/-- The key is in the bucket when the watch is created. -/
def WatchesHeld (key : Key) (s : Acquiring) : AcquireAction → Prop
  | .watch false => s.lockers.backend.get key ≠ none
  | _ => True

instance (key : Key) (s : Acquiring) : ∀ a : AcquireAction, Decidable (s.WatchesHeld key a)
  | .watch false =>
    inferInstanceAs (Decidable (s.lockers.backend.get key ≠ none))
  | .watch true => isTrue trivial
  | .lockers _ => isTrue trivial
  | .tryLock _ _ => isTrue trivial
  | .tried => isTrue trivial
  | .update => isTrue trivial
  | .closed => isTrue trivial
  | .cancel => isTrue trivial

end Acquiring

/-! ## Changes of the bucket -/

/-- The bucket is the same or has one new message. -/
def Bucket.Grows (b b' : Bucket) : Prop := b' = b ∨ ∃ key v, b' = b.put key v

variable {b b' : Bucket} {key : Key}

theorem Bucket.grows_create {token : Token} (h : b.create key token = some b') : b.Grows b' := by
  rw [create] at h
  split at h
  · cases h
  · exact .inr ⟨key, some token, (Option.some.inj h).symm⟩

theorem Bucket.grows_delete {rev : ℕ} (h : b.delete key rev = some b') : b.Grows b' := by
  obtain ⟨-, heq⟩ := Option.ite_none_right_eq_some.mp h
  exact .inr ⟨key, none, (Option.some.inj heq).symm⟩

theorem Bucket.grows_lost {b : Bucket} {o : Option Bucket}
    (h : ∀ b', o = some b' → b.Grows b') (applied : Bool) :
    b.Grows (if applied then o.getD b else b) := by
  split
  · cases ho : o with
    | none => exact .inl rfl
    | some b' => exact h b' ho
  · exact .inl rfl

theorem backend_stop (s : Lockers Bucket Call) (timer : Option ℕ) :
    (s.stop timer).backend = s.backend := by
  cases timer <;> rfl

theorem backend_cleanupLocal (s : Lockers Bucket Call) (n : ℕ) (key : Key)
    (token : Token) : (cleanupLocal s n key token).backend = s.backend := by
  rw [cleanupLocal]
  split
  · split
    · exact backend_stop s _
    · rfl
  · rfl

theorem grows_turn {s : Lockers Bucket Call} {n : ℕ} {call : Call}
    {answer : Answer} {r : Lockers Bucket Call × Call} (h : turn s n call answer = some r) :
    s.backend.Grows r.1.backend := by
  cases call with
  | tryKV key token ttl | releaseKV key token =>
    cases answer <;> cases h <;> exact .inl rfl
  | create key token ttl =>
    cases answer with
    | reply =>
      rw [turn] at h
      split at h
      next b hcreate =>
        cases h
        exact Bucket.grows_create hcreate
      · cases h
        exact .inl rfl
    | lost applied =>
      cases h
      exact Bucket.grows_lost (fun _ => Bucket.grows_create) applied
  | afterFunc key token ttl | lookup key =>
    rw [turn] at h
    split at h <;> cases h <;> exact .inl rfl
  | store key entry =>
    cases h
    exact .inl rfl
  | get key token =>
    cases answer with
    | reply =>
      rw [turn] at h
      split at h
      · split at h <;> cases h <;> exact .inl rfl
      · cases h
        exact .inl rfl
    | lost applied =>
      cases h
      exact .inl rfl
  | delete key token rev =>
    cases answer with
    | reply =>
      rw [turn] at h
      split at h
      next b hdelete =>
        cases h
        exact Bucket.grows_delete hdelete
      · cases h
        exact .inl rfl
    | lost applied =>
      cases h
      exact Bucket.grows_lost (fun _ => Bucket.grows_delete) applied
  | cleanupLocal key token =>
    cases h
    exact .inl (backend_cleanupLocal s n key token)
  | returned result => cases h

theorem grows_step {s s' : Lockers Bucket Call} {a : LockersAction}
    (ha : ¬isExpiry a = true) (h : protocol.step s a = some s') :
    s.backend.Grows s'.backend := by
  cases a with
  | tryLock t n key token ttl | release t n key =>
    obtain ⟨-, heq⟩ := Option.ite_none_right_eq_some.mp h
    cases heq
    exact .inl rfl
  | fire i t =>
    obtain ⟨-, hmap⟩ := Option.ite_none_right_eq_some.mp h
    obtain ⟨alarm, -, rfl⟩ := Option.map_eq_some_iff.mp hmap
    exact .inl (backend_stop s (some i))
  | advance t answer =>
    obtain ⟨thread, -, hmap⟩ := Option.bind_eq_some_iff.mp h
    obtain ⟨r, hr, rfl⟩ := Option.map_eq_some_iff.mp hmap
    exact grows_turn hr
  | expire key => exact absurd rfl ha

/-! ## Reports -/

theorem Bucket.Grows.reported (h : b.Grows b') (habsent : b'.get key = none) :
    b.get key = none ∨ some .delete ∈ report key b b' := by
  rcases h with rfl | ⟨key', v, rfl⟩
  · exact .inl habsent
  · by_cases hkey : key = key'
    · subst hkey
      have hlast : (b.put key v).last key = some (v, b.seq + 1) := Function.update_self _ _ _
      have hnew : (b.put key v).last key ≠ b.last key := by
        rw [hlast]
        intro heq
        exact absurd (b.le_seq key v _ heq.symm) (Nat.not_succ_le_self _)
      cases v with
      | none =>
        right
        rw [report, if_neg hnew, hlast]
        exact List.mem_singleton_self _
      | some token =>
        rw [get, hlast] at habsent
        cases habsent
    · left
      rw [get] at habsent ⊢
      have hlast : (b.put key' v).last key = b.last key := Function.update_of_ne hkey _ _
      rwa [hlast] at habsent

namespace Acquiring

variable {key : Key} {n : ℕ} {ttl : ℤ}

/-- While `Acquire` waits, the key is there or its deletion is on the way. -/
def Awake (key : Key) (s : Acquiring) : Prop :=
  ∀ updates, s.place = .waiting updates → s.lockers.backend.get key ≠ none ∨ some .delete ∈ updates

variable {s : Acquiring}

theorem Awake.notify (h : s.Awake key)
    {l : Lockers Bucket Call} (hgrows : s.lockers.backend.Grows l.backend) :
    (s.notify key l).Awake key := by
  intro updates hplace
  cases hold : s.place with
  | waiting before =>
    dsimp only [Acquiring.notify] at hplace
    rw [hold] at hplace
    obtain rfl := AcquirePlace.waiting.inj hplace
    by_cases habsent : l.backend.get key = none
    · right
      rcases hgrows.reported habsent with hbefore | hnow
      · have hqueued := (h before hold).resolve_left (not_not.mpr hbefore)
        exact List.mem_append_left _ hqueued
      · exact List.mem_append_right _ hnow
    · exact .inl habsent
  | _ =>
    dsimp only [Acquiring.notify] at hplace
    rw [hold] at hplace
    cases hplace

theorem Awake.update (h : s.Awake key)
    {entry : Option Operation} {updates : List (Option Operation)}
    (hplace : s.place = .waiting (entry :: updates)) :
    (s.update entry updates).Awake key := by
  have hskip : entry ≠ some .delete → Awake key { s with place := .waiting updates } := by
    intro hentry updates' heq
    obtain rfl := AcquirePlace.waiting.inj heq
    refine (h _ hplace).imp_right fun hmem => ?_
    exact (List.mem_cons.mp hmem).resolve_left hentry.symm
  rw [Acquiring.update.eq_def]
  split
  · exact hskip nofun
  · intro updates' heq
    cases heq
  · rename_i hentry
    exact hskip fun heq => hentry (Option.some.inj heq)

theorem awake_watch_iff (s : Acquiring) : Awake key { s with place := .waiting [] } ↔
      s.lockers.backend.get key ≠ none := by
  constructor
  · intro h
    exact (h [] rfl).resolve_right List.not_mem_nil
  · intro hheld updates _
    exact .inl hheld

theorem Awake.step {s s' : Acquiring} {a : AcquireAction} (h : s.Awake key)
    (ha : s.WatchesHeld key a) (hstep : step key n ttl s a = some s') :
    s'.Awake key := by
  cases a with
  | lockers a =>
    obtain ⟨hexpiry, hmap⟩ := Option.ite_none_left_eq_some.mp hstep
    obtain ⟨l, hl, rfl⟩ := Option.map_eq_some_iff.mp hmap
    exact h.notify (grows_step hexpiry hl)
  | tryLock t token =>
    rw [Acquiring.step] at hstep
    split at hstep
    · obtain ⟨l, -, rfl⟩ := Option.map_eq_some_iff.mp hstep
      intro updates heq
      cases heq
    · cases hstep
  | tried =>
    rw [Acquiring.step] at hstep
    split at hstep
    · obtain ⟨thread, -, htried⟩ := Option.bind_eq_some_iff.mp hstep
      intro updates heq
      rw [Acquiring.tried.eq_def] at htried
      split at htried <;> cases htried <;> cases heq
    · cases hstep
  | watch fails =>
    rw [Acquiring.step] at hstep
    split at hstep
    · cases hstep
      cases fails with
      | true =>
        intro updates heq
        cases heq
      | false => exact (awake_watch_iff s).mpr ha
    · cases hstep
  | update =>
    rw [Acquiring.step] at hstep
    split at hstep
    · rename_i hplace
      cases hstep
      exact h.update hplace
    · cases hstep
  | closed | cancel =>
    rw [Acquiring.step] at hstep
    split at hstep <;> cases hstep
    intro updates heq
    cases heq

theorem Awake.not_asleep (h : s.Awake key) : ¬s.Asleep key := by
  rintro ⟨habsent, hplace⟩
  rcases h [] hplace with hheld | hmem
  · exact hheld habsent
  · cases hmem

/-- In every run of one `Acquire` with any other calls, `Acquire` never waits for
a lock that is free with no update queued for it, exactly if the key is in the
bucket whenever `Acquire` creates its watch. -/
theorem not_asleep_iff {as : List AcquireAction} {s : Acquiring}
    (hrun : (step key n ttl).run new as = some s) :
    (∀ before t, before <+: as → (step key n ttl).run new before = some t → ¬t.Asleep key) ↔
      (step key n ttl).AllSteps (WatchesHeld key) new as := by
  refine (step key n ttl).forall_states_iff_allSteps (I := Awake key)
    (fun s a s' h ha hstep => h.step ha hstep) (fun s h => h.not_asleep) ?_
    hrun ?_
  · intro s a s' _ hstep hawake
    cases a with
    | watch fails =>
      cases fails with
      | true => trivial
      | false =>
        rw [Acquiring.step] at hstep
        split at hstep
        · cases hstep
          exact fun habsent => hawake ⟨habsent, rfl⟩
        · cases hstep
    | _ => trivial
  · intro updates heq
    cases heq

/-- Instance 0 takes the lock, and the `TryLock` of an `Acquire` of instance 1 is
refused. -/
def refusal : List AcquireAction :=
  [.lockers (.tryLock 0 0 "k" "a" 0), .lockers (.advance 0 .reply),
    .lockers (.advance 0 .reply), .lockers (.advance 0 .reply),
    .lockers (.advance 0 .reply), .tryLock 1 "b", .lockers (.advance 1 .reply),
    .lockers (.advance 1 .reply), .tried]

def unlocking : List AcquireAction :=
  [.lockers (.release 2 0 "k"), .lockers (.advance 2 .reply),
    .lockers (.advance 2 .reply), .lockers (.advance 2 .reply),
    .lockers (.advance 2 .reply), .lockers (.advance 2 .reply)]

/-- The release comes before the watch. -/
theorem sleeps_through_unlocking :
    ∃ s, (step "k" 1 0).run new (refusal ++ unlocking ++ [.watch false]) = some s ∧ s.Asleep "k" :=
  ⟨_, rfl, rfl, rfl⟩

theorem not_asleep_watchFirst :
    ∃ s, (step "k" 1 0).run new (refusal ++ .watch false :: unlocking) = some s ∧
      s.place = .waiting [some .delete] ∧ ¬s.Asleep "k" := by
  obtain ⟨s, hrun, hplace⟩ : ∃ s, (step "k" 1 0).run new
      (refusal ++ .watch false :: unlocking) = some s ∧
        s.place = .waiting [some .delete] := ⟨_, rfl, rfl⟩
  refine ⟨s, hrun, hplace, ?_⟩
  exact (not_asleep_iff hrun).mpr (by decide) _ s (List.prefix_refl _) hrun

end Acquiring

end Nats

end GoWarp.Lock
