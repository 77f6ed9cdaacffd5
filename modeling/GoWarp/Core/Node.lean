import GoWarp.Core.MergeRace

/-!
# A node among others

In `ModeEventualDistributed` a `Set` does its local part as in
`ModeStrongLocal` and publishes in the background, and a listener invalidates
the cached value whenever an event arrives.  So the calls on a node take the
steps of the calls on one Warp, and the listener takes steps between them.

This module says what a step of the calls does to the Warp of the node.
-/

namespace GoWarp.Core

open Support Support.Program

variable {T : Type}

namespace System

/-- The listener handles an event: `cache.Invalidate` of its key. -/
def hear (s : System T) (k : Key) : System T :=
  s.onWarp fun w => { w with cache := w.cache.invalidate k }

/-! ## What a step does to the Warp -/

/-- The entry that the `cache.Set` of a thread writes. -/
def entryOf (reg : Registration) (t : Instant) (d : Duration) : Phase T → Option (CacheEntry T)
  | .setMerged newVal _ => some (Cache.newEntry t newVal
      (cacheTTL reg (chosenTTL reg d reg.ttl)))
  | .filling _ mv ttl => some (Cache.newEntry t mv (cacheTTL reg ttl))
  | .sliding v _ ttl => some (Cache.newEntry t v (cacheTTL reg ttl))
  | _ => none

/-- The entry that a step writes to the cache, if any. -/
def cacheWrite (reg : Registration) (s : System T) : Action T → Option (CacheEntry T)
  | .cacheSet i t d => entryOf reg t d (s.threads i)
  | _ => none

/-- The value that the `store.Set` of a thread writes. -/
def valueOf : Phase T → Option T
  | .setCached newVal _ _ => some newVal.data
  | _ => none

/-- The value that a step writes to the store, if any. -/
def storeWrite (s : System T) : Action T → Option T
  | .storeSet i =>
    if s.warp.storeKind ≠ .absent then valueOf (s.threads i) else none
  | _ => none

inductive Effect (k : Key) (w : Warp T) :
    Option (CacheEntry T) → Option T → Warp T → Prop where
  | same : Effect k w none none w
  | touched (ttl : Duration) (now : Instant) :
      Effect k w none none (w.touch k ttl now)
  | stored (data : T) : Effect k w none (some data) (w.storeSet k data)
  | cached (entry : CacheEntry T) :
      Effect k w (some entry) none { w with cache := Function.update w.cache k (some entry) }

namespace Effect

variable {k : Key} {w w' : Warp T} {entry : Option (CacheEntry T)} {data : Option T}

variable (h : Effect k w entry data w')
include h

theorem storeKind : w'.storeKind = w.storeKind := by cases h <;> rfl

theorem merges : w'.merges = w.merges := by cases h <;> rfl

theorem registered : (w'.regs k).isSome = (w.regs k).isSome := by
  cases h with
  | touched ttl now => simp [Warp.touch]
  | _ => rfl

theorem cache : w'.cache k = (entry <|> w.cache k) := by
  cases h with
  | cached entry => exact Function.update_self k (some entry) w.cache
  | _ => rfl

theorem store : w'.store k = (data <|> w.store k) := by
  cases h with
  | stored data => exact Function.update_self k (some data) w.store
  | _ => rfl

end Effect

variable {k : Key} {reg : Registration} {s s' : System T}

structure Stepped (k : Key) (reg : Registration) (s : System T) (a : Action T)
    (s' : System T) : Prop where
  effect : Effect k s.warp (s.cacheWrite reg a) (s.storeWrite a) s'.warp
  clock : s'.clock = a.reading.getD s.clock

theorem stepped_cacheSetStep {i : ℕ} {t : Instant} {d : Duration}
    (h : cacheSetStep k reg s i t d = some s') :
    Stepped k reg s (.cacheSet i t d) s' := by
  rw [cacheSetStep] at h
  have hwrite : s.cacheWrite reg (.cacheSet i t d) = entryOf reg t d (s.threads i) := rfl
  cases hi : s.threads i with
  | setMerged newVal now | filling p mv ttl | sliding v now ttl =>
    rw [hi] at h hwrite
    cases h
    exact ⟨hwrite ▸ .cached _, rfl⟩
  | _ =>
    rw [hi] at h
    cases h

theorem stepped_storeSetStep {i : ℕ} (h : storeSetStep k s i = some s') :
    Stepped k reg s (.storeSet i) s' := by
  rw [storeSetStep] at h
  have hwrite : s.storeWrite (.storeSet i) =
      if s.warp.storeKind ≠ .absent then valueOf (s.threads i)
      else none := rfl
  cases hi : s.threads i with
  | setCached newVal now ttl =>
    rw [hi] at h hwrite
    dsimp only at h
    by_cases hkind : s.warp.storeKind ≠ .absent
    · rw [if_pos hkind] at h hwrite
      cases h
      exact ⟨hwrite ▸ .stored _, rfl⟩
    · rw [if_neg hkind] at h hwrite
      cases h
      exact ⟨hwrite ▸ .same, rfl⟩
  | _ =>
    rw [hi] at h
    cases h

theorem stepped_of_stepWith {a : Action T}
    (h : stepWith k reg s a = some s') : Stepped k reg s a s' := by
  cases a with
  | call i r =>
    rw [stepWith, callStep] at h
    split at h <;> cases h
    exact ⟨.same, rfl⟩
  | readClock i t =>
    rw [stepWith, readClockStep] at h
    split at h <;> cases h
    exact ⟨.same, rfl⟩
  | cacheGet i t =>
    obtain ⟨-, ph, rfl⟩ := cacheGetStep_eq h
    exact ⟨.same, rfl⟩
  | storeGet i =>
    rw [stepWith, storeGetStep] at h
    split at h <;> cases h
    exact ⟨.same, rfl⟩
  | cacheSet i t d => exact stepped_cacheSetStep h
  | storeSet i => exact stepped_storeSetStep h
  | touch i =>
    rw [stepWith, touchStep] at h
    split at h <;> cases h
    exact ⟨.touched _ _, rfl⟩
  | inspect i t =>
    rw [stepWith, inspectStep] at h
    split at h
    · split at h <;> cases h <;> exact ⟨.same, rfl⟩
    · cases h
  | join i =>
    rw [stepWith, joinStep] at h
    split at h <;> cases h
    exact ⟨.same, rfl⟩
  | flightRead =>
    rw [stepWith, flightReadStep] at h
    split at h <;> cases h
    exact ⟨.same, rfl⟩
  | flightFinish t =>
    rw [stepWith, flightFinishStep] at h
    split at h <;> cases h
    exact ⟨.same, rfl⟩
  | softTimeout i =>
    rw [stepWith, softTimeoutStep] at h
    split at h
    · split at h <;> cases h <;> exact ⟨.same, rfl⟩
    · cases h
  | receive i d =>
    rw [stepWith, receiveStep] at h
    split at h <;> cases h
    · exact ⟨.same, rfl⟩
    · exact ⟨.touched _ _, rfl⟩
    · exact ⟨.touched _ _, rfl⟩
    · exact ⟨.same, rfl⟩
    · exact ⟨.touched _ _, rfl⟩
  | slide i d =>
    rw [stepWith, slideStep] at h
    split at h
    · split at h <;> cases h
      · exact ⟨.touched _ _, rfl⟩
      · exact ⟨.same, rfl⟩
    · cases h
  | eager i j =>
    rw [stepWith, eagerStep] at h
    split at h
    · split at h <;> cases h <;> exact ⟨.same, rfl⟩
    · cases h

end System

end GoWarp.Core
