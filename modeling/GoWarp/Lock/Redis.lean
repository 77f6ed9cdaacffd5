import GoWarp.Lock.Backend

/-!
# The Redis locker

`TryLock` stores a new token with `SET NX`, arms a timer for it and enters it
in the table of the instance.  `Release` looks the token up, and
`releaseWithToken` deletes the key with a script if it holds the token, and the
entry in the table if it has the token.
-/

namespace GoWarp.Lock

open Support

namespace Redis

/-- What a call does next: `SET NX`; arm the timer; write the table; look up
the table; stop the timer; run the script; `cleanupLocal`. -/
inductive Call where
  | setNX (key : Key) (token : Token) (ttl : ℤ)
  | afterFunc (key : Key) (token : Token) (ttl : ℤ)
  | store (key : Key) (entry : LockEntry)
  | lookup (key : Key)
  | stop (key : Key) (entry : LockEntry)
  | script (key : Key) (token : Token)
  | cleanupLocal (key : Key) (token : Token)
  | returned (result : Finish)
deriving DecidableEq

abbrev Server := Key → Option Token

/-- `SET NX`; `none` when the key is there. -/
def setNX (server : Server) (key : Key) (token : Token) : Option Server :=
  match server key with
  | some _ => none
  | none => some (Function.update server key (some token))

/-- `redisDelScript`. -/
def delScript (server : Server) (key : Key) (token : Token) : Server :=
  if server key = some token then Function.update server key none else server

def cleanupLocal {γ : Type} (s : Lockers Server γ) (n : ℕ) (key : Key)
    (token : Token) : Lockers Server γ :=
  match s.entries n key with
  | some entry =>
    if entry.token = token then s.setEntry n key none else s
  | none => s

/-- One operation of a call of instance `n`. -/
def turn (s : Lockers Server Call) (n : ℕ) : Call → Answer → Option (Lockers Server Call × Call)
  | .setNX key token ttl, .reply =>
    match setNX s.backend key token with
    | some server =>
      some ({ s with backend := server }, .afterFunc key token ttl)
    | none => some (s, .returned .refused)
  | .setNX key token _, .lost applied =>
    some ({ s with
        backend := if applied then
            (setNX s.backend key token).getD s.backend
          else s.backend },
      .returned .failed)
  | .afterFunc key token ttl, _ =>
    if 0 < ttl then
      some (s.arm n key token, .store key ⟨token, some s.nextTimer⟩)
    else
      some (s, .store key ⟨token, none⟩)
  | .store key entry, _ =>
    some (s.setEntry n key (some entry), .returned .locked)
  | .lookup key, _ =>
    match s.entries n key with
    | some entry => some (s, .stop key entry)
    | none => some (s, .returned .released)
  | .stop key entry, _ => some (s.stop entry.timer, .script key entry.token)
  | .script key token, .reply =>
    some ({ s with backend := delScript s.backend key token }, .cleanupLocal key token)
  | .script key token, .lost applied =>
    some ({ s with
        backend := if applied then delScript s.backend key token
          else s.backend },
      .returned .failed)
  | .cleanupLocal key token, _ =>
    some (cleanupLocal s n key token, .returned .released)
  | .returned _, _ => none

def protocol : Protocol Server Call where
  tryLock := .setNX
  release := .lookup
  releaseWithToken := .script
  turn := turn
  expire server key := Function.update server key none

/-! ## The script respects ownership -/

def Call.token : Call → Option Token
  | .setNX _ token _ => some token
  | .afterFunc _ token _ => some token
  | .store _ entry => some entry.token
  | .lookup _ => none
  | .stop _ entry => some entry.token
  | .script _ token => some token
  | .cleanupLocal _ token => some token
  | .returned _ => none

variable {s : Lockers Server Call} {n : ℕ}

theorem changes_setNX {key : Key} {token : Token} {server : Server} (hmint : (n, token) ∈ s.minted)
    (h : setNX s.backend key token = some server) :
    Lockers.Changes n s.minted s.backend server := by
  rw [setNX] at h
  split at h
  · cases h
  next hkey =>
    cases h
    exact .installed key token hmint hkey

theorem changes_delScript {token : Token} (hmint : (n, token) ∈ s.minted) (key : Key) :
    Lockers.Changes n s.minted s.backend (delScript s.backend key token) := by
  rw [delScript]
  split
  next hkey => exact .removed key token hmint hkey
  · exact .same

theorem token_returned (result : Finish) (token : Token)
    (h : (Call.returned result).token = some token) :
    (n, token) ∈ s.minted := by
  cases h

/-- The calls rely on nothing in the server. -/
abbrev Turns (n : ℕ) (s : Lockers Server Call) : Lockers Server Call × Call → Prop :=
  Lockers.Turns id Call.token (fun _ _ => True) n s

variable {answer : Answer} {r : Lockers Server Call × Call}

section

variable (h : Lockers.Held Call.token s)
include h

theorem turns_setNX {key : Key} {token : Token} {ttl : ℤ} (hmint : (n, token) ∈ s.minted)
    (hturn : turn s n (.setNX key token ttl) answer = some r) :
    Turns n s r := by
  have htoken : ∀ token', (Call.afterFunc key token ttl).token = some token' →
      (n, token') ∈ s.minted := by
    rintro _ ⟨⟩
    exact hmint
  cases hset : setNX s.backend key token with
  | some server =>
    have hchanges := changes_setNX hmint hset
    cases answer with
    | reply =>
      rw [turn, hset] at hturn
      cases hturn
      exact .of_backend h htoken trivial (fun _ h => h) hchanges
    | lost applied =>
      rw [turn, hset] at hturn
      cases hturn
      refine .of_backend h (token_returned _) trivial (fun _ h => h) ?_
      cases applied with
      | false => exact .same
      | true => exact hchanges
  | none =>
    cases answer with
    | reply =>
      rw [turn, hset] at hturn
      cases hturn
      exact .of_call h (token_returned _) trivial
    | lost applied =>
      rw [turn, hset] at hturn
      cases hturn
      refine .of_backend h (token_returned _) trivial (fun _ h => h) ?_
      cases applied <;> exact .same

theorem turns_script {key : Key} {token : Token} (hmint : (n, token) ∈ s.minted)
    (hturn : turn s n (.script key token) answer = some r) :
    Turns n s r := by
  have hchanges := changes_delScript hmint key
  cases answer with
  | reply =>
    cases hturn
    refine .of_backend h ?_ trivial (fun _ h => h) hchanges
    rintro _ ⟨⟩
    exact hmint
  | lost applied =>
    cases hturn
    refine .of_backend h (token_returned _) trivial (fun _ h => h) ?_
    cases applied with
    | false => exact .same
    | true => exact hchanges

theorem turns_cleanupLocal (key : Key) (token : Token) :
    Turns n s (cleanupLocal s n key token, .returned .released) := by
  rw [cleanupLocal]
  cases s.entries n key with
  | none => exact .of_call h (token_returned _) trivial
  | some entry =>
    dsimp only
    split
    · exact .of_setEntry h (fun _ he => by cases he) (token_returned _)
        trivial
    · exact .of_call h (token_returned _) trivial

theorem turns_turn {call : Call} (htoken : ∀ token, call.token = some token → (n, token) ∈ s.minted)
    (hturn : turn s n call answer = some r) : Turns n s r := by
  cases call with
  | setNX key token ttl => exact turns_setNX h (htoken token rfl) hturn
  | afterFunc key token ttl =>
    rw [turn] at hturn
    split at hturn
    · cases hturn
      exact .of_arm h (htoken token rfl) htoken trivial
    · cases hturn
      exact .of_call h htoken trivial
  | store key entry =>
    cases hturn
    refine .of_setEntry h (fun e he => ?_) (token_returned _) trivial
    cases he
    exact htoken _ rfl
  | lookup key =>
    rw [turn] at hturn
    split at hturn
    next entry hentry =>
      cases hturn
      refine .of_call h (fun token ht => ?_) trivial
      cases ht
      exact h.entries n key entry hentry
    · cases hturn
      exact .of_call h (token_returned _) trivial
  | stop key entry =>
    cases hturn
    exact .of_stop h htoken trivial
  | script key token => exact turns_script h (htoken token rfl) hturn
  | cleanupLocal key token =>
    cases hturn
    exact turns_cleanupLocal h key token
  | returned result => cases hturn

end

theorem owning : protocol.Owning id Call.token (fun _ _ => True) where
  tryLock _ _ _ := rfl
  release _ := rfl
  releaseWithToken _ _ := rfl
  fits _ _ _ _ := ⟨trivial, trivial, trivial⟩
  expire _ _ := rfl
  fits_expire _ _ _ _ := trivial
  turn _ _ _ _ _ h htoken _ hturn := turns_turn h htoken hturn

end Redis

end GoWarp.Lock
