import GoWarp.Core.AnyCommit
import GoWarp.Core.Versions
import Mathlib.Data.Finset.Card

/-!
# Reads and the history of a key

A `Get` or a `GetOrSet` of a key with sliding or frequency-based expiration
writes the value it has found back to the cache, in order to extend its TTL.
For a versioned cache that is one more version, and with a full history the
oldest version is lost.  A read also brings its key to the front of the order
in which keys are removed.

Two runs are compared here, one with reads and one without them.  They give the
same past values if the reads of a key do not write back, if there is one
version of each key only, or if the versions of the key never exceed the limit;
and if no key is removed to make room.
-/

namespace GoWarp.Core

open Support Support.Program
open VersionedValue (Shaped SameView extend size)

variable {ω σ T : Type}

/-- A hit writes the value back. -/
def Registration.adapts (reg : Registration) : Bool :=
  reg.ttlOpts.sliding || decide (0 < reg.ttlOpts.freqThreshold)

namespace WarpOp

def reads : WarpOp ω T → Option Key
  | .get k => some k
  | .getOrSet k _ => some k
  | _ => none

/-- The key of a `Set`. -/
def sets : WarpOp ω T → Option Key
  | .set k _ => some k
  | _ => none

end WarpOp

namespace WarpOver

/-- The operation is a read that writes back when it finds a value. -/
def writesBack (w : WarpOver σ T) : WarpOp ω T → Bool
  | .get k =>
    match w.regs k with
    | some reg => !w.plainHit reg && reg.adapts
    | none => false
  | .getOrSet k _ =>
    match w.regs k with
    | some reg => reg.adapts
    | none => false
  | _ => false

/-- The operation adds a version of `k`. -/
def addsTo (w : WarpOver σ T) (k : Key) (op : WarpOp ω T) : Bool :=
  decide (op.sets = some k) || (decide (op.reads = some k) && w.writesBack op)

/-- The operations that add a version of `k`. -/
def added (w : WarpOver σ T) (k : Key) (as : List (World ω × WarpOp ω T)) :
    ℕ :=
  as.countP fun a => w.addsTo k a.2

/-- No read of `k` writes back. -/
def NoWriteBack (w : WarpOver σ T) (k : Key) (as : List (World ω × WarpOp ω T)) : Prop :=
  ∀ a ∈ as, a.2.reads = some k → w.writesBack a.2 = false

/-! ## Two histories of one key -/

/-- What becomes of the histories of `k` in the run with reads and in the one
without, with the steps `rest` ahead: they stay the same, or give the same
answers and have room for all the versions to come. -/
def Account (w : WarpOver σ T) (limit : ℤ) (rest : List (World ω × WarpOp ω T)) (k : Key)
    (h₁ h₂ : Option (VersionedValue T)) : Prop :=
  ((limit = 1 ∨ w.NoWriteBack k rest) ∧ h₁ = h₂) ∨ (SameView h₁ h₂ ∧ size h₂ ≤ size h₁ ∧
      (size h₁ : ℤ) + w.added k rest ≤ limit)

namespace Account

variable {w : WarpOver σ T} {limit : ℤ} {a : World ω × WarpOp ω T}
  {rest : List (World ω × WarpOp ω T)} {k : Key}
  {h₁ h₂ : Option (VersionedValue T)}

theorem added_cons_of_adds (h : w.addsTo k a.2 = true) :
    w.added k (a :: rest) = w.added k rest + 1 :=
  List.countP_cons_of_pos h

theorem sameView (h : Account w limit rest k h₁ h₂) : SameView h₁ h₂ := by
  rcases h with ⟨_, rfl⟩ | ⟨hview, _⟩
  · exact .refl h₁
  · exact hview

theorem exact_tail (h : limit = 1 ∨ w.NoWriteBack k (a :: rest)) :
    limit = 1 ∨ w.NoWriteBack k rest :=
  h.imp id fun hno a ha => hno a (List.mem_cons_of_mem _ ha)

theorem tail (h : Account w limit (a :: rest) k h₁ h₂) : Account w limit rest k h₁ h₂ := by
  rcases h with ⟨hexact, heq⟩ | ⟨hview, hsize, hroom⟩
  · exact .inl ⟨exact_tail hexact, heq⟩
  · have hle : w.added k rest ≤ w.added k (a :: rest) :=
      (List.sublist_cons_self a rest).countP_le
    exact .inr ⟨hview, hsize, by omega⟩

theorem set (h : Account w limit (a :: rest) k h₁ h₂) (hsets : a.2.sets = some k)
    (hshaped₁ : ∀ vv, h₁ = some vv → vv.Shaped limit)
    (hshaped₂ : ∀ vv, h₂ = some vv → vv.Shaped limit) (v : Value T) :
    Account w limit rest k (some (extend limit h₁ v)) (some (extend limit h₂ v)) := by
  rcases h with ⟨hexact, rfl⟩ | ⟨hview, hsize, hroom⟩
  · exact .inl ⟨exact_tail hexact, rfl⟩
  · rw [added_cons_of_adds (by simp [addsTo, hsets])] at hroom
    push_cast at hroom
    have hroom₁ : (size h₁ : ℤ) + 1 ≤ limit := by omega
    have hroom₂ : (size h₂ : ℤ) + 1 ≤ limit := by omega
    refine .inr ⟨hview.extend hshaped₁ hshaped₂ hroom₁ hroom₂ v, ?_, ?_⟩
    · rw [VersionedValue.size_extend hshaped₁ hroom₁, VersionedValue.size_extend hshaped₂ hroom₂]
      omega
    · rw [VersionedValue.size_extend hshaped₁ hroom₁]
      push_cast
      omega

theorem again {vv : VersionedValue T} {v : Value T} (h : Account w limit (a :: rest) k (some vv) h₂)
    (hreads : a.2.reads = some k) (hback : w.writesBack a.2 = true)
    (hshaped : vv.Shaped limit) (hlatest : vv.latest = some v) :
    Account w limit rest k (some (vv.add v)) h₂ := by
  rcases h with ⟨hexact, rfl⟩ | ⟨hview, hsize, hroom⟩
  · rcases hexact with rfl | hno
    · rw [VersionedValue.add_latest_of_single hshaped hlatest]
      exact .inl ⟨.inl rfl, rfl⟩
    · rw [hno a List.mem_cons_self hreads] at hback
      cases hback
  · rw [added_cons_of_adds (by simp [addsTo, hreads, hback])] at hroom
    push_cast at hroom
    have hroom₁ : (vv.versions.length : ℤ) + 1 ≤ limit := by
      have : (size (some vv) : ℤ) = vv.versions.length := rfl
      omega
    have hsize' : size (some (vv.add v)) = size (some vv) + 1 := by
      rw [VersionedValue.add_of_room hshaped.limit_eq hroom₁]
      exact List.length_append
    refine .inr ⟨hview.again hshaped hlatest hroom₁, ?_, ?_⟩
    · omega
    · rw [hsize']
      push_cast
      omega

end Account

end WarpOver

/-! ## One Warp -/

namespace VersionedCache

variable {base : CacheOps ω (VersionedValue T) σ} (law : base.Keeping)
  (limit : ℤ) (keys : Finset Key)

/-- The keys in the order are some of `keys`, each once, and those with a
history, which is in shape. -/
structure Sound (s : VersionedCache σ) : Prop where
  nodup : s.order.Nodup
  within : ∀ k ∈ s.order, k ∈ keys
  entered : ∀ k, history law s k ≠ none → k ∈ s.order
  shaped : ∀ k vv, history law s k = some vv → vv.Shaped limit

variable {law limit keys} {s s' : VersionedCache σ} {k : Key}

variable (h : s.Sound law limit keys)
include h

theorem Sound.reordered (hreordered : Reordered law s s') : s'.Sound law limit keys where
  nodup := hreordered.order.nodup_iff.mpr h.nodup
  within := fun k hk => h.within k (hreordered.order.mem_iff.mp hk)
  entered := fun k hk => hreordered.order.mem_iff.mpr (h.entered k (hreordered.history ▸ hk))
  shaped := fun k vv hk => h.shaped k vv (hreordered.history ▸ hk)

theorem Sound.room {maxEntries : ℤ}
    (hfit : maxEntries ≤ 0 ∨ (keys.card : ℤ) ≤ maxEntries) (hk : k ∈ keys) :
    k ∈ s.order ∨ ¬(0 < maxEntries ∧ maxEntries < s.order.length + 1) := by
  by_cases hmem : k ∈ s.order
  · exact .inl hmem
  · right
    rintro ⟨hpos, hlt⟩
    have hsub : (k :: s.order).toFinset ⊆ keys := by
      intro k' hk'
      rcases List.mem_cons.mp (List.mem_toFinset.mp hk') with rfl | hold
      · exact hk
      · exact h.within k' hold
    have hcard := Finset.card_le_card hsub
    rw [List.toFinset_card_of_nodup (List.nodup_cons.mpr ⟨hmem, h.nodup⟩),
      List.length_cons] at hcard
    omega

theorem Sound.extended (hlimit : 1 ≤ limit) (hk : k ∈ keys) {v : Value T}
    (hhistory : history law s' = Function.update (history law s) k
      (some (extend limit (history law s k) v)))
    (horder : s'.order.Perm (if k ∈ s.order then s.order else k :: s.order)) :
    s'.Sound law limit keys := by
  have hmem : ∀ k', k' ∈ s'.order ↔ k' = k ∨ k' ∈ s.order := by
    intro k'
    rw [horder.mem_iff]
    split
    · rename_i hold
      constructor
      · exact .inr
      · rintro (rfl | hk')
        · exact hold
        · exact hk'
    · exact List.mem_cons
  constructor
  · rw [horder.nodup_iff]
    split
    · exact h.nodup
    · rename_i hnew
      exact List.nodup_cons.mpr ⟨hnew, h.nodup⟩
  · intro k' hk'
    rcases (hmem k').mp hk' with rfl | hold
    · exact hk
    · exact h.within k' hold
  · intro k' hk'
    rw [hhistory] at hk'
    by_cases heq : k' = k
    · exact (hmem k').mpr (.inl heq)
    · rw [Function.update_of_ne heq] at hk'
      exact (hmem k').mpr (.inr (h.entered k' hk'))
  · intro k' vv hvv
    rw [hhistory] at hvv
    by_cases heq : k' = k
    · subst heq
      rw [Function.update_self] at hvv
      cases hvv
      exact VersionedValue.shaped_extend hlimit (h.shaped k') v
    · rw [Function.update_of_ne heq] at hvv
      exact h.shaped k' vv hvv

end VersionedCache

namespace WarpOver

/-- The Warp differs from `w₀` in what its operations change only. -/
structure SameConfig (w₀ w : WarpOver σ T) : Prop where
  storeKind : w.storeKind = w₀.storeKind
  hasBus : w.hasBus = w₀.hasBus
  merges : w.merges = w₀.merges
  traceEnabled : w.traceEnabled = w₀.traceEnabled
  hasLatencyHist : w.hasLatencyHist = w₀.hasLatencyHist
  regs : ∀ k, (w.regs k).map (fun reg => reg.touch 0 0) = (w₀.regs k).map fun reg => reg.touch 0 0

namespace SameConfig

variable {w₀ w : WarpOver σ T}

theorem refl (w : WarpOver σ T) : SameConfig w w := ⟨rfl, rfl, rfl, rfl, rfl, fun _ => rfl⟩

variable (h : SameConfig w₀ w)
include h

theorem touch (k : Key) (ttl : Duration) (now : Instant) : SameConfig w₀ (w.touch k ttl now) := by
  refine { h with regs := fun k' => ?_ }
  rw [← h.regs k']
  by_cases hk : k' = k
  · subst hk
    rw [WarpOver.touch]
    dsimp only
    rw [Function.update_self, Option.map_map]
    rfl
  · exact congrArg (Option.map _) (Function.update_of_ne hk _ _)

theorem regs_cases {w' : WarpOver σ T} (h' : SameConfig w₀ w') (k : Key) :
    (w.regs k = none ∧ w'.regs k = none) ∨ ∃ reg reg', w.regs k = some reg ∧ w'.regs k = some reg' ∧
        reg.touch 0 0 = reg'.touch 0 0 := by
  have hregs := (h.regs k).trans (h'.regs k).symm
  cases hreg : w.regs k with
  | none =>
    rw [hreg, Option.map_none] at hregs
    exact .inl ⟨rfl, Option.map_eq_none_iff.mp hregs.symm⟩
  | some reg =>
    rw [hreg, Option.map_some] at hregs
    obtain ⟨reg', hreg', heq⟩ := Option.map_eq_some_iff.mp hregs.symm
    exact .inr ⟨reg, reg', rfl, hreg', heq.symm⟩

theorem writesBack_eq (op : WarpOp ω T) : w.writesBack op = w₀.writesBack op := by
  have hregs : ∀ k (f : Registration → Bool), (∀ reg, f reg = f (reg.touch 0 0)) →
      (match w.regs k with
        | some reg => f reg
        | none => false) =
      match w₀.regs k with
        | some reg => f reg
        | none => false := by
    intro k f hf
    rcases h.regs_cases (refl w₀) k with ⟨hnone, hnone'⟩ | ⟨reg, reg', hreg, hreg', heq⟩
    · rw [hnone, hnone']
    · rw [hreg, hreg']
      dsimp only
      rw [hf reg, heq, ← hf]
  cases op with
  | get k =>
    have hplain : ∀ reg, w.plainHit reg = w₀.plainHit reg := by
      intro reg
      rw [plainHit, plainHit, h.traceEnabled, h.hasLatencyHist]
    rw [writesBack, writesBack]
    simp only [hplain]
    exact hregs k (fun reg => !w₀.plainHit reg && reg.adapts) fun _ => rfl
  | getOrSet k loader => exact hregs k Registration.adapts fun _ => rfl
  | _ => rfl

end SameConfig

end WarpOver

end GoWarp.Core
