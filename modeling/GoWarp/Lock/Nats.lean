import GoWarp.Lock.Redis

/-!
# The NATS locker

The lock is a key of a JetStream bucket.  `TryLock` creates the key with a new
token, arms a timer and enters the token in the table of the instance.
`Release` looks the token up; `releaseWithToken` gets the key, compares the
token, and deletes the key at the revision it has got.

Every change of a key gets a revision of its own, so a key that is still at the
revision that `Get` returned holds the token that `Get` returned.
-/

namespace GoWarp.Lock

open Support
open Function (update update_of_ne update_self)

namespace Nats

/-- A bucket: the last message for each key with its revision, which is a
token or the marker of a deletion. -/
structure Bucket where
  last : Key → Option (Option Token × ℕ)
  seq : ℕ
  le_seq : ∀ key v rev, last key = some (v, rev) → rev ≤ seq

namespace Bucket

def empty : Bucket := ⟨fun _ => none, 0, fun _ _ _ h => by cases h⟩

/-- A new message for a key. -/
def put (b : Bucket) (key : Key) (v : Option Token) : Bucket where
  last := update b.last key (some (v, b.seq + 1))
  seq := b.seq + 1
  le_seq key' v' rev h := by
    by_cases hk : key' = key
    · rw [hk, update_self] at h
      cases h
      exact Nat.le_refl _
    · rw [update_of_ne hk] at h
      exact Nat.le_succ_of_le (b.le_seq key' v' rev h)

def get (b : Bucket) (key : Key) : Option (Token × ℕ) :=
  match b.last key with
  | some (some token, rev) => some (token, rev)
  | _ => none

/-- `Create`; `none` is `ErrKeyExists`. -/
def create (b : Bucket) (key : Key) (token : Token) : Option Bucket :=
  match b.get key with
  | some _ => none
  | none => some (b.put key (some token))

/-- `Delete` with `LastRevision`; `none` is the error for a wrong last
sequence. -/
def delete (b : Bucket) (key : Key) (rev : ℕ) : Option Bucket :=
  if (b.last key).map Prod.snd = some rev then some (b.put key none) else none

def expire (b : Bucket) (key : Key) : Bucket where
  last := update b.last key none
  seq := b.seq
  le_seq key' v' rev h := by
    by_cases hk : key' = key
    · rw [hk, update_self] at h
      cases h
    · rw [update_of_ne hk] at h
      exact b.le_seq key' v' rev h

def stored (b : Bucket) (key : Key) : Option Token := (b.last key).bind Prod.fst

theorem stored_put (b : Bucket) (key : Key) (v : Option Token) :
    (b.put key v).stored = update b.stored key v := by
  funext key'
  by_cases hk : key' = key
  · subst hk
    simp [stored, put]
  · simp [stored, put, hk]

theorem stored_expire (b : Bucket) (key : Key) :
    (b.expire key).stored = update b.stored key none := by
  funext key'
  by_cases hk : key' = key
  · subst hk
    simp [stored, expire]
  · simp [stored, expire, hk]

theorem get_eq_none {b : Bucket} {key : Key} (h : b.get key = none) : b.stored key = none := by
  rw [get] at h
  rw [stored]
  cases hlast : b.last key with
  | none => rfl
  | some x =>
    obtain ⟨_ | token, rev⟩ := x
    · rfl
    · rw [hlast] at h
      cases h

theorem get_eq_some {b : Bucket} {key : Key} {token : Token} {rev : ℕ}
    (h : b.get key = some (token, rev)) :
    b.last key = some (some token, rev) := by
  rw [get] at h
  cases hlast : b.last key with
  | none =>
    rw [hlast] at h
    cases h
  | some x =>
    obtain ⟨_ | token', rev'⟩ := x
    · rw [hlast] at h
      cases h
    · rw [hlast] at h
      cases h
      rfl

end Bucket

/-! ## The code -/

/-- What a call does next: get the bucket for `TryLock`; `Create`; arm the
timer; write the table; look up the table; get the bucket for
`releaseWithToken`; `Get`; `Delete`; `cleanupLocal`. -/
inductive Call where
  | tryKV (key : Key) (token : Token) (ttl : ℤ)
  | create (key : Key) (token : Token) (ttl : ℤ)
  | afterFunc (key : Key) (token : Token) (ttl : ℤ)
  | store (key : Key) (entry : LockEntry)
  | lookup (key : Key)
  | releaseKV (key : Key) (token : Token)
  | get (key : Key) (token : Token)
  | delete (key : Key) (token : Token) (rev : ℕ)
  | cleanupLocal (key : Key) (token : Token)
  | returned (result : Finish)
deriving DecidableEq

def cleanupLocal (s : Lockers Bucket Call) (n : ℕ) (key : Key)
    (token : Token) : Lockers Bucket Call :=
  match s.entries n key with
  | some entry =>
    if entry.token = token then (s.stop entry.timer).setEntry n key none
    else s
  | none => s

/-- One operation of a call of instance `n`.  `getKV` fails like a call to the
backend. -/
def turn (s : Lockers Bucket Call) (n : ℕ) : Call → Answer → Option (Lockers Bucket Call × Call)
  | .tryKV key token ttl, .reply => some (s, .create key token ttl)
  | .tryKV _ _ _, .lost _ => some (s, .returned .failed)
  | .create key token ttl, .reply =>
    match s.backend.create key token with
    | some bucket =>
      some ({ s with backend := bucket }, .afterFunc key token ttl)
    | none => some (s, .returned .refused)
  | .create key token _, .lost applied =>
    some ({ s with
        backend := if applied then
            (s.backend.create key token).getD s.backend
          else s.backend },
      .returned .failed)
  | .afterFunc key token ttl, _ =>
    if 0 < ttl then
      some (s.arm n key token, .store key ⟨token, some s.nextTimer⟩)
    else
      some (s, .store key ⟨token, none⟩)
  | .store key entry, _ =>
    some (s.setEntry n key (some entry), .returned .locked)
  | .lookup key, _ =>
    match s.entries n key with
    | some entry => some (s, .releaseKV key entry.token)
    | none => some (s, .returned .released)
  | .releaseKV key token, .reply => some (s, .get key token)
  | .releaseKV _ _, .lost _ => some (s, .returned .failed)
  | .get key token, .reply =>
    match s.backend.get key with
    | some (value, rev) =>
      if value ≠ token then some (s, .returned .released)
      else some (s, .delete key token rev)
    | none => some (s, .cleanupLocal key token)
  | .get _ _, .lost _ => some (s, .returned .failed)
  | .delete key token rev, .reply =>
    match s.backend.delete key rev with
    | some bucket =>
      some ({ s with backend := bucket }, .cleanupLocal key token)
    | none => some (s, .returned .released)
  | .delete key _ rev, .lost applied =>
    some ({ s with
        backend := if applied then
            (s.backend.delete key rev).getD s.backend
          else s.backend },
      .returned .failed)
  | .cleanupLocal key token, _ =>
    some (cleanupLocal s n key token, .returned .released)
  | .returned _, _ => none

def protocol : Protocol Bucket Call where
  tryLock := .tryKV
  release := .lookup
  releaseWithToken := .releaseKV
  turn := turn
  expire := Bucket.expire

/-! ## Revisions protect the tokens of others -/

def Call.token : Call → Option Token
  | .tryKV _ token _ => some token
  | .create _ token _ => some token
  | .afterFunc _ token _ => some token
  | .store _ entry => some entry.token
  | .lookup _ => none
  | .releaseKV _ token => some token
  | .get _ token => some token
  | .delete _ token _ => some token
  | .cleanupLocal _ token => some token
  | .returned _ => none

/-- What a call relies on: a key that is at the revision of its `Delete` holds
its token. -/
def Fits (b : Bucket) : Call → Prop
  | .delete key token rev => rev ≤ b.seq ∧
      ∀ v, b.last key = some (v, rev) → v = some token
  | _ => True

theorem fits_put (b : Bucket) (key : Key) (v : Option Token) {call : Call}
    (h : Fits b call) : Fits (b.put key v) call := by
  cases call with
  | delete key' token rev =>
    obtain ⟨hle, hlast⟩ := h
    refine ⟨Nat.le_succ_of_le hle, fun v' hv' => ?_⟩
    dsimp only [Bucket.put] at hv'
    by_cases hk : key' = key
    · rw [hk, update_self] at hv'
      cases hv'
      omega
    · rw [update_of_ne hk] at hv'
      exact hlast v' hv'
  | _ => trivial

theorem fits_expire (b : Bucket) (key : Key) {call : Call}
    (h : Fits b call) : Fits (b.expire key) call := by
  cases call with
  | delete key' token rev =>
    obtain ⟨hle, hlast⟩ := h
    refine ⟨hle, fun v' hv' => ?_⟩
    dsimp only [Bucket.expire] at hv'
    by_cases hk : key' = key
    · rw [hk, update_self] at hv'
      cases hv'
    · rw [update_of_ne hk] at hv'
      exact hlast v' hv'
  | _ => trivial

variable {s : Lockers Bucket Call} {n : ℕ}

variable {token : Token}

theorem changes_create {key : Key} {bucket : Bucket} (hmint : (n, token) ∈ s.minted)
    (h : s.backend.create key token = some bucket) :
    Lockers.Changes n s.minted s.backend.stored bucket.stored ∧
      ∀ call, Fits s.backend call → Fits bucket call := by
  rw [Bucket.create] at h
  split at h
  · cases h
  next hget =>
    cases h
    rw [Bucket.stored_put]
    exact ⟨.installed key token hmint (Bucket.get_eq_none hget), fun _ => fits_put _ _ _⟩

theorem changes_delete {key : Key} {rev : ℕ} {bucket : Bucket} (hmint : (n, token) ∈ s.minted)
    (hfits : Fits s.backend (.delete key token rev)) (h : s.backend.delete key rev = some bucket) :
    Lockers.Changes n s.minted s.backend.stored bucket.stored ∧
      ∀ call, Fits s.backend call → Fits bucket call := by
  obtain ⟨hrev, hs⟩ := Option.ite_none_right_eq_some.mp h
  cases hs
  obtain ⟨⟨v, rev'⟩, hlast, hrev⟩ := Option.map_eq_some_iff.mp hrev
  obtain rfl : rev' = rev := hrev
  -- the key is at the revision that the call has got
  obtain rfl := hfits.2 v hlast
  have hstored : s.backend.stored key = some token := by rw [Bucket.stored, hlast, Option.bind_some]
  rw [Bucket.stored_put]
  exact ⟨.removed key token hmint hstored, fun _ => fits_put _ _ _⟩

theorem token_returned (result : Finish) (token : Token)
    (h : (Call.returned result).token = some token) :
    (n, token) ∈ s.minted := by
  cases h

abbrev Turns (n : ℕ) (s : Lockers Bucket Call) : Lockers Bucket Call × Call → Prop :=
  Lockers.Turns Bucket.stored Call.token Fits n s

variable {answer : Answer} {r : Lockers Bucket Call × Call}

section

variable (h : Lockers.Held Call.token s)
include h

theorem turns_lost {bucket : Option Bucket} {applied : Bool} (hbucket : ∀ b, bucket = some b →
      Lockers.Changes n s.minted s.backend.stored b.stored ∧
        ∀ call, Fits s.backend call → Fits b call) :
    Turns n s ({ s with
      backend := if applied then bucket.getD s.backend else s.backend },
      .returned .failed) := by
  cases applied with
  | false => exact .of_call h (token_returned _) trivial
  | true =>
    cases bucket with
    | none => exact .of_call h (token_returned _) trivial
    | some b =>
      obtain ⟨hchanges, hothers⟩ := hbucket b rfl
      exact .of_backend h (token_returned _) trivial hothers hchanges

section

variable (hmint : (n, token) ∈ s.minted)
include hmint

theorem turns_create {key : Key} {ttl : ℤ}
    (hturn : turn s n (.create key token ttl) answer = some r) :
    Turns n s r := by
  have hcreate : ∀ b, s.backend.create key token = some b → _ := fun b hb => changes_create hmint hb
  cases answer with
  | reply =>
    rw [turn] at hturn
    split at hturn
    next b hb =>
      cases hturn
      obtain ⟨hchanges, hothers⟩ := hcreate b hb
      refine .of_backend h ?_ trivial hothers hchanges
      rintro _ ⟨⟩
      exact hmint
    · cases hturn
      exact .of_call h (token_returned _) trivial
  | lost applied =>
    cases hturn
    exact turns_lost h hcreate

theorem turns_get {key : Key} (hturn : turn s n (.get key token) answer = some r) :
    Turns n s r := by
  cases answer with
  | reply =>
    rw [turn] at hturn
    cases hget : s.backend.get key with
    | none =>
      rw [hget] at hturn
      cases hturn
      refine .of_call h ?_ trivial
      rintro _ ⟨⟩
      exact hmint
    | some x =>
      obtain ⟨value, rev⟩ := x
      rw [hget] at hturn
      dsimp only at hturn
      split at hturn
      · cases hturn
        exact .of_call h (token_returned _) trivial
      next hvalue =>
        cases hturn
        obtain rfl := not_not.mp hvalue
        have hlast := Bucket.get_eq_some hget
        refine .of_call h ?_ ⟨s.backend.le_seq key _ _ hlast, ?_⟩
        · rintro _ ⟨⟩
          exact hmint
        · intro v hv
          rw [hlast] at hv
          cases hv
          rfl
  | lost applied =>
    cases hturn
    exact .of_call h (token_returned _) trivial

theorem turns_delete {key : Key} {rev : ℕ} (hfits : Fits s.backend (.delete key token rev))
    (hturn : turn s n (.delete key token rev) answer = some r) :
    Turns n s r := by
  have hdelete : ∀ b, s.backend.delete key rev = some b → _ :=
    fun b hb => changes_delete hmint hfits hb
  cases answer with
  | reply =>
    rw [turn] at hturn
    split at hturn
    next b hb =>
      cases hturn
      obtain ⟨hchanges, hothers⟩ := hdelete b hb
      refine .of_backend h ?_ trivial hothers hchanges
      rintro _ ⟨⟩
      exact hmint
    · cases hturn
      exact .of_call h (token_returned _) trivial
  | lost applied =>
    cases hturn
    exact turns_lost h hdelete

end

theorem turns_cleanupLocal (key : Key) (token : Token) :
    Turns n s (cleanupLocal s n key token, .returned .released) := by
  rw [cleanupLocal]
  cases s.entries n key with
  | none => exact .of_call h (token_returned _) trivial
  | some entry =>
    dsimp only
    split
    · exact .of_stop_setEntry h (token_returned _) trivial
    · exact .of_call h (token_returned _) trivial

theorem turns_turn {call : Call} (htoken : ∀ token, call.token = some token → (n, token) ∈ s.minted)
    (hfits : Fits s.backend call) (hturn : turn s n call answer = some r) : Turns n s r := by
  cases call with
  | tryKV key token ttl | releaseKV key token =>
    cases answer with
    | reply =>
      cases hturn
      exact .of_call h htoken trivial
    | lost applied =>
      cases hturn
      exact .of_call h (token_returned _) trivial
  | create key token ttl => exact turns_create h (htoken token rfl) hturn
  | afterFunc key token ttl =>
    rw [turn] at hturn
    split at hturn
    · cases hturn
      exact .of_arm h (htoken token rfl) htoken trivial
    · cases hturn
      exact .of_call h htoken trivial
  | store key entry =>
    cases hturn
    refine .of_setEntry h (fun e he => ?_) (token_returned _) trivial
    cases he
    exact htoken _ rfl
  | lookup key =>
    rw [turn] at hturn
    split at hturn
    next entry hentry =>
      cases hturn
      refine .of_call h (fun token ht => ?_) trivial
      cases ht
      exact h.entries n key entry hentry
    · cases hturn
      exact .of_call h (token_returned _) trivial
  | get key token => exact turns_get h (htoken token rfl) hturn
  | delete key token rev =>
    exact turns_delete h (htoken token rfl) hfits hturn
  | cleanupLocal key token =>
    cases hturn
    exact turns_cleanupLocal h key token
  | returned result => cases hturn

end

theorem owning : protocol.Owning Bucket.stored Call.token Fits where
  tryLock _ _ _ := rfl
  release _ := rfl
  releaseWithToken _ _ := rfl
  fits _ _ _ _ := ⟨trivial, trivial, trivial⟩
  expire := Bucket.stored_expire
  fits_expire b key _ := fits_expire b key
  turn _ _ _ _ _ h htoken hfits hturn := turns_turn h htoken hfits hturn

/-! ## Both lockers -/

/-- In every run of Redis lockers and in every run of NATS lockers, only a
goroutine of the instance that has stored a token deletes or replaces it, apart
from its expiry in the backend, and a stored token is one of exactly one
instance. -/
theorem released_by_owner :
    (∀ as s, Redis.protocol.step.run (Lockers.new fun _ => none) as = some s →
      Redis.protocol.OwnerOnly id s) ∧
    ∀ as s, Nats.protocol.step.run (Lockers.new Bucket.empty) as = some s →
      Nats.protocol.OwnerOnly Bucket.stored s :=
  ⟨fun _ _ => Redis.owning.ownerOnly_of_run fun _ => rfl,
    fun _ _ => owning.ownerOnly_of_run fun _ => rfl⟩

/-- A lock of instance 0 expires while it is being released, and instance 1
takes it before the operation that deletes. -/
def lateRelease (before after : ℕ) : List LockersAction :=
  .tryLock 0 0 "k" "a" 1 :: (List.replicate before (.advance 0 .reply) ++
    .release 1 0 "k" :: (List.replicate after (.advance 1 .reply) ++
      .expire "k" :: .tryLock 2 1 "k" "b" 1 ::
        (List.replicate before (.advance 2 .reply) ++ [.advance 1 .reply])))

theorem released_by_owner_lateRelease : (∃ s, Redis.protocol.step.run (Lockers.new fun _ => none)
        (lateRelease 3 2) = some s ∧ s.backend "k" = some "b" ∧
      Redis.protocol.OwnerOnly id s) ∧
    ∃ s, Nats.protocol.step.run (Lockers.new Bucket.empty)
        (lateRelease 4 3) = some s ∧ s.backend.stored "k" = some "b" ∧
      Nats.protocol.OwnerOnly Bucket.stored s := by
  have hredis : (Redis.protocol.step.run (Lockers.new fun _ => none)
      (lateRelease 3 2)).map (fun s => s.backend "k") = some (some "b") := by
    decide
  have hnats : (Nats.protocol.step.run (Lockers.new Bucket.empty)
      (lateRelease 4 3)).map (fun s => s.backend.stored "k") = some (some "b") := by
    decide
  obtain ⟨s, hs, hk⟩ := Option.map_eq_some_iff.mp hredis
  obtain ⟨s', hs', hk'⟩ := Option.map_eq_some_iff.mp hnats
  exact ⟨⟨s, hs, hk, released_by_owner.1 _ s hs⟩, ⟨s', hs', hk', released_by_owner.2 _ s' hs'⟩⟩

end Nats

end GoWarp.Lock
