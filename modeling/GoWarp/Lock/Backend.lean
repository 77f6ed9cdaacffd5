import GoWarp.Lock.Memory
import GoWarp.Support.Ownership
import Mathlib.Data.Int.Notation

/-!
# Lockers over a backend

The Redis and the NATS locker keep the lock in a backend, as a token that the
holder has made up, and a table of the tokens that an instance has stored
there.  A timer that has been armed for a token releases the lock later with
that token.  The two differ in what they ask of the backend.

A protocol says what the calls of a locker do, one operation at a time.  If
each operation on the backend installs a token of the instance where there is
none, or removes a token of the instance, the lockers follow the rules of
ownership, and no instance releases the lock of another one.
-/

namespace GoWarp.Lock

open Support
open Function (update update_of_ne update_self)

abbrev Token := String

/-- `redisLockEntry` and `lockEntry`. -/
structure LockEntry where
  token : Token
  timer : Option ℕ
deriving DecidableEq

/-- What the callback of a timer has captured. -/
structure Alarm where
  node : ℕ
  key : Key
  token : Token
deriving DecidableEq

/-- A call to a backend is answered, or fails before or after it has been
carried out. -/
inductive Answer where
  | reply
  | lost (applied : Bool)
deriving DecidableEq

/-- What `TryLock`, `Release` and a callback return. -/
inductive Finish where
  | locked
  | refused
  | failed
  | released
deriving DecidableEq

/-- A backend and the instances that use it, with their timers and their
goroutines.  `minted` is history: which instance has made up which token. -/
structure Lockers (β γ : Type) where
  backend : β
  minted : List (ℕ × Token)
  entries : ℕ → Key → Option LockEntry
  timers : ℕ → Option Alarm
  nextTimer : ℕ
  threads : ℕ → Option (ℕ × γ)

/-- A step: a call, a timer that fires, the next operation of a goroutine, or
a lock that expires in the backend. -/
inductive LockersAction where
  | tryLock (t n : ℕ) (key : Key) (token : Token) (ttl : ℤ)
  | release (t n : ℕ) (key : Key)
  | fire (i t : ℕ)
  | advance (t : ℕ) (answer : Answer)
  | expire (key : Key)
deriving DecidableEq

namespace Lockers

variable {β γ : Type}

def new (backend : β) : Lockers β γ :=
  ⟨backend, [], fun _ _ => none, fun _ => none, 0, fun _ => none⟩

def setThread (s : Lockers β γ) (t n : ℕ) (call : γ) : Lockers β γ :=
  { s with threads := update s.threads t (some (n, call)) }

def setEntry (s : Lockers β γ) (n : ℕ) (key : Key) (entry : Option LockEntry) : Lockers β γ :=
  { s with
    entries := update s.entries n (update (s.entries n) key entry) }

/-- `time.AfterFunc` with the callback that releases the token. -/
def arm (s : Lockers β γ) (n : ℕ) (key : Key) (token : Token) :
    Lockers β γ :=
  { s with
    timers := update s.timers s.nextTimer (some ⟨n, key, token⟩)
    nextTimer := s.nextTimer + 1 }

def stop (s : Lockers β γ) : Option ℕ → Lockers β γ
  | some i => { s with timers := update s.timers i none }
  | none => s

/-- The instance whose goroutine takes a step. -/
def actor (s : Lockers β γ) : LockersAction → Option ℕ
  | .tryLock _ n _ _ _ => some n
  | .release _ n _ => some n
  | .fire i _ => (s.timers i).map Alarm.node
  | .advance t _ => (s.threads t).map Prod.fst
  | .expire _ => none

end Lockers

/-- What the calls of a locker do: how `TryLock`, `Release` and
`releaseWithToken` begin, one operation of a call, and how the backend drops a
lock. -/
structure Protocol (β γ : Type) where
  tryLock : Key → Token → ℤ → γ
  release : Key → γ
  releaseWithToken : Key → Token → γ
  turn : Lockers β γ → ℕ → γ → Answer → Option (Lockers β γ × γ)
  expire : β → Key → β

namespace Protocol

variable {β γ : Type} (p : Protocol β γ)

/-- The steps of the lockers.  No token is made up twice. -/
def step : Machine (Lockers β γ) LockersAction
  | s, .tryLock t n key token ttl =>
    if (s.threads t).isNone ∧ token ∉ s.minted.map Prod.snd then
      some ({ s with minted := (n, token) :: s.minted }.setThread t n (p.tryLock key token ttl))
    else
      none
  | s, .release t n key =>
    if (s.threads t).isNone then some (s.setThread t n (p.release key))
    else none
  | s, .fire i t =>
    if (s.threads t).isNone then
      (s.timers i).map fun alarm =>
        (s.stop (some i)).setThread t alarm.node (p.releaseWithToken alarm.key alarm.token)
    else
      none
  | s, .advance t answer =>
    (s.threads t).bind fun thread =>
      (p.turn s thread.1 thread.2 answer).map fun r =>
        r.1.setThread t thread.1 r.2
  | s, .expire key => some { s with backend := p.expire s.backend key }

end Protocol

/-! ## Tokens in use -/

namespace Lockers

variable {β γ : Type}

/-- The tokens that an instance uses are its own. -/
structure Held (tokenOf : γ → Option Token) (s : Lockers β γ) : Prop where
  entries : ∀ n key entry, s.entries n key = some entry → (n, entry.token) ∈ s.minted
  timers : ∀ i alarm, s.timers i = some alarm → (alarm.node, alarm.token) ∈ s.minted
  threads : ∀ t n call token, s.threads t = some (n, call) →
    tokenOf call = some token → (n, token) ∈ s.minted

variable {tokenOf : γ → Option Token} {s : Lockers β γ}

theorem held_new (backend : β) : Held tokenOf (new backend) where
  entries _ _ _ h := by cases h
  timers _ _ h := by cases h
  threads _ _ _ _ h := by cases h

section

variable (h : Held tokenOf s)
include h

theorem Held.setThread (t : ℕ) {n : ℕ} {call : γ}
    (hcall : ∀ token, tokenOf call = some token → (n, token) ∈ s.minted) :
    Held tokenOf (s.setThread t n call) where
  entries := h.entries
  timers := h.timers
  threads u m call' token hu htoken := by
    dsimp only [Lockers.setThread] at hu
    by_cases hut : u = t
    · rw [hut, update_self] at hu
      cases hu
      exact hcall token htoken
    · rw [update_of_ne hut] at hu
      exact h.threads u m call' token hu htoken

theorem Held.setEntry {n : ℕ} (key : Key) {entry : Option LockEntry}
    (hentry : ∀ e, entry = some e → (n, e.token) ∈ s.minted) :
    Held tokenOf (s.setEntry n key entry) where
  entries m key' e he := by
    dsimp only [Lockers.setEntry] at he
    by_cases hm : m = n
    · subst hm
      rw [update_self] at he
      by_cases hk : key' = key
      · rw [hk, update_self] at he
        exact hentry e he
      · rw [update_of_ne hk] at he
        exact h.entries m key' e he
    · rw [update_of_ne hm] at he
      exact h.entries m key' e he
  timers := h.timers
  threads := h.threads

theorem Held.arm {n : ℕ} {token : Token} (key : Key)
    (hmint : (n, token) ∈ s.minted) : Held tokenOf (s.arm n key token) where
  entries := h.entries
  timers i alarm hi := by
    dsimp only [Lockers.arm] at hi
    by_cases hin : i = s.nextTimer
    · rw [hin, update_self] at hi
      cases hi
      exact hmint
    · rw [update_of_ne hin] at hi
      exact h.timers i alarm hi
  threads := h.threads

theorem Held.stop (timer : Option ℕ) : Held tokenOf (s.stop timer) := by
  cases timer with
  | none => exact h
  | some i =>
    refine ⟨h.entries, fun j alarm hj => ?_, h.threads⟩
    dsimp only [Lockers.stop] at hj
    by_cases hji : j = i
    · rw [hji, update_self] at hj
      cases hj
    · rw [update_of_ne hji] at hj
      exact h.timers j alarm hj

theorem Held.setBackend (backend : β) : Held tokenOf { s with backend := backend } :=
  ⟨h.entries, h.timers, h.threads⟩

theorem Held.mint (x : ℕ × Token) : Held tokenOf { s with minted := x :: s.minted } where
  entries n key entry he := List.mem_cons_of_mem x (h.entries n key entry he)
  timers i alarm hi := List.mem_cons_of_mem x (h.timers i alarm hi)
  threads t n call token ht htoken := List.mem_cons_of_mem x (h.threads t n call token ht htoken)

end

/-- What an operation of instance `n` does to the locks in the backend. -/
inductive Changes (n : ℕ) (minted : List (ℕ × Token))
    (locks : Key → Option Token) : (Key → Option Token) → Prop where
  | same : Changes n minted locks locks
  | installed (key : Key) (token : Token) (hmint : (n, token) ∈ minted)
      (hfree : locks key = none) :
      Changes n minted locks (update locks key (some token))
  | removed (key : Key) (token : Token) (hmint : (n, token) ∈ minted)
      (hheld : locks key = some token) :
      Changes n minted locks (update locks key none)

/-- What is asked of an operation of instance `n`: it uses tokens of `n`, and
what other calls rely on stays. -/
structure Turns (stored : β → Key → Option Token) (tokenOf : γ → Option Token)
    (Fits : β → γ → Prop) (n : ℕ) (s : Lockers β γ)
    (r : Lockers β γ × γ) : Prop where
  threads : r.1.threads = s.threads
  minted : r.1.minted = s.minted
  held : Held tokenOf r.1
  token : ∀ token, tokenOf r.2 = some token → (n, token) ∈ s.minted
  fits : Fits r.1.backend r.2
  others : ∀ call, Fits s.backend call → Fits r.1.backend call
  changes : Changes n s.minted (stored s.backend) (stored r.1.backend)

section Turns

variable {stored : β → Key → Option Token} {Fits : β → γ → Prop} {n : ℕ} {call : γ}

variable (h : Held tokenOf s)
include h

theorem Turns.of_backend {backend : β}
    (htoken : ∀ token, tokenOf call = some token → (n, token) ∈ s.minted)
    (hfits : Fits backend call) (hothers : ∀ call, Fits s.backend call → Fits backend call)
    (hchanges : Changes n s.minted (stored s.backend) (stored backend)) :
    Turns stored tokenOf Fits n s ({ s with backend := backend }, call) :=
  ⟨rfl, rfl, h.setBackend backend, htoken, hfits, hothers, hchanges⟩

theorem Turns.of_call (htoken : ∀ token, tokenOf call = some token → (n, token) ∈ s.minted)
    (hfits : Fits s.backend call) :
    Turns stored tokenOf Fits n s (s, call) :=
  .of_backend h htoken hfits (fun _ h => h) .same

theorem Turns.of_arm {key : Key} {token : Token} (hmint : (n, token) ∈ s.minted)
    (htoken : ∀ token, tokenOf call = some token → (n, token) ∈ s.minted)
    (hfits : Fits s.backend call) :
    Turns stored tokenOf Fits n s (s.arm n key token, call) :=
  ⟨rfl, rfl, h.arm key hmint, htoken, hfits, fun _ h => h, .same⟩

theorem Turns.of_setEntry {key : Key} {entry : Option LockEntry}
    (hentry : ∀ e, entry = some e → (n, e.token) ∈ s.minted)
    (htoken : ∀ token, tokenOf call = some token → (n, token) ∈ s.minted)
    (hfits : Fits s.backend call) :
    Turns stored tokenOf Fits n s (s.setEntry n key entry, call) :=
  ⟨rfl, rfl, h.setEntry key hentry, htoken, hfits, fun _ h => h, .same⟩

theorem Turns.of_stop {timer : Option ℕ}
    (htoken : ∀ token, tokenOf call = some token → (n, token) ∈ s.minted)
    (hfits : Fits s.backend call) :
    Turns stored tokenOf Fits n s (s.stop timer, call) := by
  cases timer with
  | none => exact .of_call h htoken hfits
  | some i => exact ⟨rfl, rfl, h.stop (some i), htoken, hfits, fun _ h => h, .same⟩

theorem Turns.of_stop_setEntry {key : Key} {timer : Option ℕ}
    (htoken : ∀ token, tokenOf call = some token → (n, token) ∈ s.minted)
    (hfits : Fits s.backend call) :
    Turns stored tokenOf Fits n s ((s.stop timer).setEntry n key none, call) := by
  cases timer with
  | none => exact .of_setEntry h (fun _ he => by cases he) htoken hfits
  | some i =>
    exact ⟨rfl, rfl, (h.stop (some i)).setEntry key (fun _ he => by cases he),
      htoken, hfits, fun _ h => h, .same⟩

end Turns

end Lockers

/-! ## Protocols that respect ownership -/

namespace Protocol

open Lockers

variable {β γ : Type}

/-- A protocol that respects ownership.  `Fits` is what a call relies on in the
backend. -/
structure Owning (p : Protocol β γ) (stored : β → Key → Option Token)
    (tokenOf : γ → Option Token) (Fits : β → γ → Prop) : Prop where
  tryLock : ∀ key token ttl, tokenOf (p.tryLock key token ttl) = some token
  release : ∀ key, tokenOf (p.release key) = none
  releaseWithToken : ∀ key token, tokenOf (p.releaseWithToken key token) = some token
  fits : ∀ b key token ttl, Fits b (p.tryLock key token ttl) ∧
    Fits b (p.release key) ∧ Fits b (p.releaseWithToken key token)
  expire : ∀ b key, stored (p.expire b key) = update (stored b) key none
  fits_expire : ∀ b key call, Fits b call → Fits (p.expire b key) call
  turn : ∀ s n call answer r, Held tokenOf s →
    (∀ token, tokenOf call = some token → (n, token) ∈ s.minted) →
    Fits s.backend call → p.turn s n call answer = some r →
    Turns stored tokenOf Fits n s r

variable {p : Protocol β γ} {stored : β → Key → Option Token}
  {tokenOf : γ → Option Token} {Fits : β → γ → Prop} {s s' : Lockers β γ}

/-- Who holds what, as an ownership. -/
def owners (stored : β → Key → Option Token) (s : Lockers β γ) :
    Ownership Key ℕ Token :=
  ⟨stored s.backend, s.minted⟩

structure Owned (stored : β → Key → Option Token) (tokenOf : γ → Option Token)
    (Fits : β → γ → Prop) (s : Lockers β γ) : Prop where
  held : Held tokenOf s
  fits : ∀ t n call, s.threads t = some (n, call) → Fits s.backend call
  sound : (owners stored s).Sound

/-- The event that a step is: one of the instance that takes the step, or the
expiry of a lock. -/
def Matches (s : Lockers β γ) (a : LockersAction) : Option (Ownership.Event Key ℕ Token) → Prop
  | none => True
  | some (.expire key) => a = .expire key
  | some e => e.party = s.actor a

theorem exists_event_of_changes {n : ℕ} (hturn : Changes n s.minted
      (stored s.backend) (stored s'.backend)) (hminted : s'.minted = s.minted)
    {a : LockersAction} (hactor : s.actor a = some n) :
    ∃ e, Ownership.step.orIdle (owners stored s) e = some (owners stored s') ∧ Matches s a e := by
  rw [owners, owners, hminted]
  generalize stored s'.backend = locks at hturn
  cases hturn with
  | same => exact ⟨none, rfl, trivial⟩
  | installed key token hmint hfree =>
    exact ⟨some (.install n key token), if_pos ⟨hfree, hmint⟩, hactor.symm⟩
  | removed key token hmint hheld =>
    exact ⟨some (.remove n key token), if_pos ⟨hheld, hmint⟩, hactor.symm⟩

theorem Owned.setThread (h : Owned stored tokenOf Fits s) (t : ℕ) {n : ℕ}
    {call : γ} (hcall : ∀ token, tokenOf call = some token →
      (n, token) ∈ s.minted) (hfits : Fits s.backend call) :
    Owned stored tokenOf Fits (s.setThread t n call) where
  held := h.held.setThread t hcall
  fits u m call' hu := by
    dsimp only [Lockers.setThread] at hu ⊢
    by_cases hut : u = t
    · rw [hut, update_self] at hu
      cases hu
      exact hfits
    · rw [update_of_ne hut] at hu
      exact h.fits u m call' hu
  sound := h.sound

theorem Owning.step (hp : p.Owning stored tokenOf Fits)
    (h : Owned stored tokenOf Fits s) {a : LockersAction} (hstep : p.step s a = some s') :
    Owned stored tokenOf Fits s' ∧ ∃ e, Ownership.step.orIdle (owners stored s) e =
        some (owners stored s') ∧ Matches s a e := by
  cases a with
  | tryLock t n key token ttl =>
    obtain ⟨⟨-, hnew⟩, hs⟩ := Option.ite_none_right_eq_some.mp hstep
    cases hs
    have hevent : Ownership.step (owners stored s) (.mint n token) =
        some (owners stored { s with minted := (n, token) :: s.minted }) :=
      if_neg hnew
    refine ⟨?_, some (.mint n token), hevent, rfl⟩
    have hmint : Owned stored tokenOf Fits { s with minted := (n, token) :: s.minted } :=
      ⟨h.held.mint (n, token), h.fits, h.sound.step hevent⟩
    refine hmint.setThread t (fun token' htoken => ?_) (hp.fits _ _ _ _).1
    rw [hp.tryLock] at htoken
    cases htoken
    exact List.mem_cons_self
  | release t n key =>
    obtain ⟨-, hs⟩ := Option.ite_none_right_eq_some.mp hstep
    cases hs
    refine ⟨h.setThread t (fun token htoken => ?_) (hp.fits _ _ "" 0).2.1, none, rfl, trivial⟩
    rw [hp.release] at htoken
    cases htoken
  | fire i t =>
    obtain ⟨-, hs⟩ := Option.ite_none_right_eq_some.mp hstep
    obtain ⟨alarm, halarm, rfl⟩ := Option.map_eq_some_iff.mp hs
    have hstop : Owned stored tokenOf Fits (s.stop (some i)) :=
      ⟨h.held.stop (some i), h.fits, h.sound⟩
    refine ⟨hstop.setThread t (fun token htoken => ?_) (hp.fits _ _ _ 0).2.2, none, rfl, trivial⟩
    rw [hp.releaseWithToken] at htoken
    cases htoken
    exact h.held.timers i alarm halarm
  | advance t answer =>
    obtain ⟨⟨n, call⟩, ht, hs⟩ := Option.bind_eq_some_iff.mp hstep
    obtain ⟨r, hr, rfl⟩ := Option.map_eq_some_iff.mp hs
    have hturn := hp.turn s n call answer r h.held
      (fun token => h.held.threads t n call token ht) (h.fits t n call ht) hr
    obtain ⟨e, hevent, hmatches⟩ := exists_event_of_changes hturn.changes
      hturn.minted (a := .advance t answer)
      (by rw [actor, ht, Option.map_some])
    refine ⟨?_, e, hevent, hmatches⟩
    have hafter : Owned stored tokenOf Fits r.1 := by
      refine ⟨hturn.held, fun u m call' hu => ?_, ?_⟩
      · rw [hturn.threads] at hu
        exact hturn.others call' (h.fits u m call' hu)
      · cases e with
        | none =>
          rw [← Option.some.inj hevent]
          exact h.sound
        | some e => exact h.sound.step hevent
    refine hafter.setThread t (fun token htoken => ?_) hturn.fits
    rw [hturn.minted]
    exact hturn.token token htoken
  | expire key =>
    cases hstep
    have hevent : Ownership.step (owners stored s) (.expire key) = some (owners stored
          { s with backend := p.expire s.backend key }) := by
      rw [Ownership.step, owners, owners]
      dsimp only
      rw [hp.expire]
    refine ⟨⟨h.held.setBackend _, fun t n call ht => ?_,
      h.sound.step hevent⟩, some (.expire key), hevent, rfl⟩
    exact hp.fits_expire _ _ _ (h.fits t n call ht)

/-- No instance removes or replaces the lock of another one, and a lock
belongs to one instance. -/
def OwnerOnly (p : Protocol β γ) (stored : β → Key → Option Token) (s : Lockers β γ) : Prop :=
  (∀ a s' key token, p.step s a = some s' →
    stored s.backend key = some token → stored s'.backend key ≠ some token →
    a = .expire key ∨ ∃ n, s.actor a = some n ∧ (n, token) ∈ s.minted) ∧
  ∀ key token, stored s.backend key = some token → ∃! n, (n, token) ∈ s.minted

theorem Owning.ownerOnly (hp : p.Owning stored tokenOf Fits)
    (h : Owned stored tokenOf Fits s) : p.OwnerOnly stored s := by
  refine ⟨fun a s' key token hstep hkey hkey' => ?_,
    fun key token hkey => h.sound.existsUnique hkey⟩
  obtain ⟨-, e, hevent, hmatches⟩ := hp.step h hstep
  cases e with
  | none =>
    have heq := congrArg Ownership.stored (Option.some.inj hevent)
    exact absurd ((congrFun heq key).symm.trans hkey) hkey'
  | some e =>
    rcases Ownership.changed_by_owner hevent hkey hkey' with
      rfl | ⟨n, rfl, hmint⟩
    · exact .inl hmatches
    · exact .inr ⟨n, hmatches.symm, hmint⟩

theorem Owning.ownerOnly_of_run (hp : p.Owning stored tokenOf Fits) {b : β}
    (hb : ∀ key, stored b key = none) {as : List LockersAction}
    (hrun : p.step.run (new b) as = some s) : p.OwnerOnly stored s := by
  refine hp.ownerOnly (p.step.run_invariant
    (fun _ _ _ h hstep => (hp.step h hstep).1) hrun ⟨held_new b, ?_, ?_⟩)
  · exact fun _ _ _ h => by cases h
  · have hempty : owners stored (new b : Lockers β γ) = ⟨fun _ => none, []⟩ := by
      rw [owners]
      exact congrArg (Ownership.mk · []) (funext hb)
    rw [hempty]
    exact Ownership.sound_empty

end Protocol

end GoWarp.Lock
