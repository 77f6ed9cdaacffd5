import GoWarp.Core.Versioned
import GoWarp.Support.Transition
import Mathlib.Data.List.DropRight

/-!
# Time travel

A run of calls of a versioned cache is described by the values that it sets for
one key.  As long as the base keeps the key and nothing removes it, the base
holds the last of these values, as many as the limit allows.  `Get` thus
returns the last value, and `GetAt` scans the retained values from the last to
the first.
-/

namespace GoWarp.Core

open Support Support.Program

variable {ω σ T : Type}

namespace VersionedValue

variable {vv : VersionedValue T} {v : Value T} {t : Instant}

/-- The last values of a list, as many as the limit allows; all of them if it is
not positive. -/
def retained (limit : ℤ) (values : List (Value T)) : List (Value T) :=
  if 0 < limit then values.rtake limit.toNat else values

theorem versions_add (vv : VersionedValue T) (v : Value T) :
    vv.add v = ⟨retained vv.limit (vv.versions ++ [v]), vv.limit⟩ := by
  rw [add, retained]
  by_cases hpos : 0 < vv.limit
  · rw [if_pos hpos]
    split
    · rfl
    · rename_i hle
      have hfits : (vv.versions ++ [v]).length - vv.limit.toNat = 0 := by omega
      rw [List.rtake, hfits, List.drop_zero]
  · rw [if_neg hpos]
    exact if_neg fun h => hpos h.1

theorem retained_retained_concat (limit : ℤ) (values : List (Value T)) (v : Value T) :
    retained limit (retained limit values ++ [v]) = retained limit (values ++ [v]) := by
  rw [retained, retained, retained]
  by_cases hpos : 0 < limit
  · obtain ⟨n, hn⟩ : ∃ n, limit.toNat = n + 1 :=
      Nat.exists_eq_succ_of_ne_zero (by omega)
    rw [if_pos hpos, if_pos hpos, if_pos hpos, hn, List.rtake_concat_succ, List.rtake_concat_succ]
    congr 1
    rw [List.rtake_eq_reverse_take_reverse, List.rtake_eq_reverse_take_reverse,
      List.rtake_eq_reverse_take_reverse, List.reverse_reverse, List.take_take,
      Nat.min_eq_left (Nat.le_succ n)]
  · rw [if_neg hpos, if_neg hpos, if_neg hpos]

theorem retained_singleton (limit : ℤ) (v : Value T) : retained limit [v] = [v] := by
  rw [retained]
  split
  · rename_i hpos
    obtain ⟨n, hn⟩ : ∃ n, limit.toNat = n + 1 := Nat.exists_eq_succ_of_ne_zero (by omega)
    rw [hn, ← List.nil_append [v], List.rtake_concat_succ, List.rtake_nil]
  · rfl

theorem retained_suffix (limit : ℤ) (values : List (Value T)) :
    retained limit values <:+ values := by
  rw [retained]
  split
  · exact List.drop_suffix _ _
  · exact List.suffix_refl _

theorem getLast?_retained (limit : ℤ) (values : List (Value T)) :
    (retained limit values).getLast? = values.getLast? := by
  rcases List.eq_nil_or_concat values with rfl | ⟨before, v, rfl⟩
  · rw [retained, List.rtake_nil, ite_self]
  · rw [List.concat_eq_append, List.getLast?_concat, ← retained_retained_concat, retained]
    split
    · rename_i hpos
      obtain ⟨n, hn⟩ : ∃ n, limit.toNat = n + 1 := Nat.exists_eq_succ_of_ne_zero (by omega)
      rw [hn, List.rtake_concat_succ, List.getLast?_concat]
    · exact List.getLast?_concat

/-- What the base holds for a key after these values. -/
def holding (limit : ℤ) (values : List (Value T)) : Option (VersionedValue T) :=
  if values = [] then none else some ⟨retained limit values, limit⟩

theorem extend_holding (limit : ℤ) (values : List (Value T)) (v : Value T) :
    some (extend limit (holding limit values) v) = holding limit (values ++ [v]) := by
  have hne : values ++ [v] ≠ [] := List.append_ne_nil_of_right_ne_nil _ nofun
  rw [holding, holding, if_neg hne]
  split
  · rename_i hnil
    rw [hnil, List.nil_append, retained_singleton]
    rfl
  · rw [extend, versions_add, retained_retained_concat]

theorem latest_holding (limit : ℤ) (values : List (Value T)) :
    (holding limit values).bind latest = values.getLast? := by
  rw [holding]
  split
  · rename_i hnil
    rw [hnil]
    rfl
  · exact getLast?_retained limit values

theorem versionAt_holding (limit : ℤ) (values : List (Value T)) (t : Instant) :
    ((holding limit values).bind fun vv => vv.versionAt t) =
      versionAt ⟨retained limit values, limit⟩ t := by
  rw [holding]
  split
  · rename_i hnil
    rw [hnil, retained, List.rtake_nil, ite_self]
    rfl
  · rfl

/-! ## Scanning the versions -/

theorem versionAt_eq_some_iff : vv.versionAt t = some v ↔ ∃ before after,
      vv.versions = before ++ v :: after ∧ v.timestamp ≤ t ∧ ∀ w ∈ after, t < w.timestamp := by
  rw [versionAt, List.find?_eq_some_iff_append]
  simp only [decide_eq_true_eq, Bool.not_eq_true', decide_eq_false_iff_not, not_le]
  constructor
  · rintro ⟨hle, later, earlier, hreverse, hlater⟩
    refine ⟨earlier.reverse, later.reverse, ?_, hle, ?_⟩
    · rw [← List.reverse_reverse vv.versions, hreverse]
      simp
    · intro w hw
      exact hlater w (List.mem_reverse.mp hw)
  · rintro ⟨before, after, hversions, hle, hafter⟩
    refine ⟨hle, after.reverse, before.reverse, ?_, ?_⟩
    · rw [hversions]
      simp
    · intro w hw
      exact hafter w (List.mem_reverse.mp hw)

theorem versionAt_eq_none_iff : vv.versionAt t = none ↔ ∀ w ∈ vv.versions, t < w.timestamp := by
  rw [versionAt, List.find?_eq_none]
  simp only [List.mem_reverse, decide_eq_true_eq, not_le]

theorem timestamp_le_of_versionAt
    (hsorted : vv.versions.Pairwise fun v w => v.timestamp ≤ w.timestamp)
    (hfound : vv.versionAt t = some v) {w : Value T} (hw : w ∈ vv.versions)
    (hle : w.timestamp ≤ t) : w.timestamp ≤ v.timestamp := by
  obtain ⟨before, after, hversions, -, hafter⟩ := versionAt_eq_some_iff.mp hfound
  rw [hversions] at hsorted hw
  rcases List.mem_append.mp hw with hbefore | hrest
  · exact (List.pairwise_append.mp hsorted).2.2 w hbefore v List.mem_cons_self
  · rcases List.mem_cons.mp hrest with rfl | hlater
    · exact le_rfl
    · exact absurd hle (not_le.mpr (hafter w hlater))

end VersionedValue

/-! ## A base that keeps one key -/

/-- The base never fails for the key, and keeps what is put under it. -/
structure CacheOps.KeepingKey {V : Type} (base : CacheOps ω V σ) (k : Key) where
  content : σ → Option V
  get : ∀ x s, ∃ s', exec (base.get x k) s = (.ok (content s), s') ∧ content s' = content s
  set : ∀ x v ttl s, ∃ s', exec (base.set x k v ttl) s = (.ok (), s') ∧ content s' = some v
  get_other : ∀ x k' s, k' ≠ k → content (exec (base.get x k') s).2 = content s
  set_other : ∀ x k' v ttl s, k' ≠ k → content (exec (base.set x k' v ttl) s).2 = content s
  invalidate_other : ∀ x k' s, k' ≠ k → content (exec (base.invalidate x k') s).2 = content s

/-- A base that keeps everything keeps each key. -/
def CacheOps.Keeping.forKey {V : Type} {base : CacheOps ω V σ}
    (law : base.Keeping) (k : Key) : base.KeepingKey k where
  content s := law.contents s k
  get x s := by
    obtain ⟨s', hexec, hcontents⟩ := law.get x k s
    exact ⟨s', hexec, congrFun hcontents k⟩
  set x v ttl s := by
    obtain ⟨s', hexec, hcontents⟩ := law.set x k v ttl s
    exact ⟨s', hexec, by rw [hcontents, Function.update_self]⟩
  get_other x k' s _ := by
    obtain ⟨s', hexec, hcontents⟩ := law.get x k' s
    rw [hexec, hcontents]
  set_other x k' v ttl s hne := by
    obtain ⟨s', hexec, hcontents⟩ := law.set x k' v ttl s
    rw [hexec, hcontents, Function.update_of_ne hne.symm]
  invalidate_other x k' s hne := by
    obtain ⟨s', hexec, hcontents⟩ := law.invalidate x k' s
    rw [hexec, hcontents, Function.update_of_ne hne.symm]

/-! ## Runs of calls -/

inductive CacheCall (T : Type) where
  | get (k : Key)
  | getAt (k : Key) (t : Instant)
  | set (k : Key) (v : Value T) (ttl : Duration)
  | invalidate (k : Key)

def CacheCall.value (k : Key) : CacheCall T → Option (Value T)
  | .set k' v _ => if k' = k then some v else none
  | .get _ => none
  | .getAt _ _ => none
  | .invalidate _ => none

/-- The values that a run sets for the key. -/
def CacheCall.values (k : Key) (calls : List (BaseWorld ω × CacheCall T)) : List (Value T) :=
  calls.filterMap fun a => a.2.value k

namespace VersionedCache

section Calls

variable (base : CacheOps ω (VersionedValue T) σ) (limit maxEntries : ℤ)

def after (s : VersionedCache σ) (x : BaseWorld ω) : CacheCall T → VersionedCache σ
  | .get k => (exec (get base x k) s).2
  | .getAt k t => (exec (getAt base x k t) s).2
  | .set k v ttl => (exec (set base limit maxEntries x k v ttl) s).2
  | .invalidate k => (exec (invalidate base x k) s).2

/-- Every call comes with what the calls of the base meet meanwhile. -/
def machine : Machine (VersionedCache σ) (BaseWorld ω × CacheCall T) :=
  fun s a => some (s.after base limit maxEntries a.1 a.2)

end Calls

/-- The key that a `Set` removes to make room. -/
def evicted (maxEntries : ℤ) (s : VersionedCache σ) (k : Key) : Option Key :=
  if k ∈ s.order then none
  else if 0 < maxEntries ∧ maxEntries < s.order.length + 1 then
    some (s.order.getLast?.getD k)
  else none

theorem evicted_of_unlimited {maxEntries : ℤ} (h : maxEntries ≤ 0)
    (s : VersionedCache σ) (k : Key) : s.evicted maxEntries k = none := by
  have hroom : ¬(0 < maxEntries ∧ maxEntries < s.order.length + 1) :=
    fun hfull => not_lt.mpr h hfull.1
  rw [evicted, if_neg hroom, ite_self]

def Spares (maxEntries : ℤ) (k : Key) (s : VersionedCache σ) : BaseWorld ω × CacheCall T → Prop
  | (_, .set k' _ _) => s.evicted maxEntries k' ≠ some k
  | (_, .invalidate k') => k' ≠ k
  | _ => True

/-! ## What a call does to the key -/

variable {base : CacheOps ω (VersionedValue T) σ} {k : Key}
  (law : base.KeepingKey k) {limit maxEntries : ℤ} {s : VersionedCache σ}

theorem content_base_get (x : ω) (k' : Key) (b : σ) :
    law.content (exec (base.get x k') b).2 = law.content b := by
  by_cases hk : k' = k
  · obtain ⟨b', hexec, hcontent⟩ := law.get x b
    rw [hk, hexec, hcontent]
  · exact law.get_other x k' b hk

theorem content_lookup (look : VersionedValue T → Option (Value T)) (x : BaseWorld ω) (k' : Key) :
    law.content (exec (do
      match ← onBase (base.get x.get k') with
      | none => pure none
      | some vv =>
        modify fun s => s.moveToFront k'
        pure (look vv)) s).2.base = law.content s.base := by
  apply Preserves.snd_bind
    (P := fun s' : VersionedCache σ => law.content s'.base = law.content s.base)
  · exact content_base_get law x.get k' s.base
  · intro old
    cases old with
    | none => exact .pure none
    | some vv =>
      apply Preserves.bind
      · apply Preserves.modify
        intro s' hs'
        rw [base_moveToFront, hs']
      · exact fun _ => .pure (look vv)

theorem content_record (x : BaseWorld ω) {k' : Key} (hspares : s.evicted maxEntries k' ≠ some k) :
    law.content (exec (record base maxEntries x k') s).2.base =
      law.content s.base := by
  rw [record, exec_bind, Program.exec_get]
  rw [evicted] at hspares
  dsimp only
  by_cases hmem : k' ∈ s.order
  · rw [if_pos hmem]
    exact congrArg law.content (base_moveToFront s k')
  · rw [if_neg hmem] at hspares ⊢
    split
    · rename_i hfull
      rw [if_pos hfull] at hspares
      have hne : s.order.getLast?.getD k' ≠ k := fun h => hspares (h ▸ rfl)
      change law.content (exec (tryCatch (onBase (base.invalidate x.invalidate
        (s.order.getLast?.getD k'))) fun _ => pure ())
          { s with order := (k' :: s.order).dropLast }).2.base = _
      rw [snd_tryCatch_pure, onBase, exec_zoom]
      exact law.invalidate_other x.invalidate _ s.base hne
    · rfl

theorem content_set_self (x : BaseWorld ω) (v : Value T) (ttl : Duration)
    (hspares : s.evicted maxEntries k ≠ some k) :
    law.content (exec (set base limit maxEntries x k v ttl) s).2.base =
      some (VersionedValue.extend limit (law.content s.base) v) := by
  obtain ⟨b, hget, -⟩ := law.get x.get s.base
  obtain ⟨b', hset, hcontent⟩ := law.set x.set (.extend limit (law.content s.base) v) ttl b
  rw [exec_set_of_base hget hset]
  exact (content_record law (s := { s with base := b' }) x hspares).trans hcontent

theorem content_set_other (x : BaseWorld ω) {k' : Key} (hne : k' ≠ k) (v : Value T) (ttl : Duration)
    (hspares : s.evicted maxEntries k' ≠ some k) :
    law.content (exec (set base limit maxEntries x k' v ttl) s).2.base =
      law.content s.base := by
  -- the calls of the base do not touch the order, on which the eviction depends
  have hweaken : ∀ s' : VersionedCache σ,
      law.content s'.base = law.content s.base ∧ s'.order = s.order →
        law.content s'.base = law.content s.base := fun _ h => h.1
  refine Preserves.snd_bind_of ⟨content_base_get law x.get k' s.base, rfl⟩
    hweaken fun old s₁ h₁ => ?_
  have hset := (law.set_other x.set k' (VersionedValue.extend limit old v) ttl
    s₁.base hne).trans h₁.1
  refine Preserves.snd_bind_of ⟨hset, h₁.2⟩ hweaken fun _ s₂ h₂ => ?_
  rw [content_record law x, h₂.1]
  rw [evicted, h₂.2]
  exact hspares

/-- The base holds the values that have been set so far, as many as the limit
allows. -/
def Holds (limit : ℤ) (s : VersionedCache σ) (values : List (Value T)) : Prop :=
  law.content s.base = VersionedValue.holding limit values

theorem Holds.after {values : List (Value T)} (h : Holds law limit s values)
    (x : BaseWorld ω) {call : CacheCall T} (hspares : s.Spares maxEntries k (x, call)) :
    Holds law limit (s.after base limit maxEntries x call) (values ++ (call.value k).toList) := by
  rw [Holds] at h ⊢
  cases call with
  | get k' =>
    rw [CacheCall.value, Option.toList_none, List.append_nil, ← h]
    exact content_lookup law VersionedValue.latest x k'
  | getAt k' t =>
    rw [CacheCall.value, Option.toList_none, List.append_nil, ← h]
    exact content_lookup law (fun vv => vv.versionAt t) x k'
  | set k' v ttl =>
    rw [CacheCall.value]
    split
    · rename_i hk
      subst hk
      rw [Option.toList_some, ← VersionedValue.extend_holding, ← h]
      exact content_set_self law x v ttl hspares
    · rename_i hk
      rw [Option.toList_none, List.append_nil, ← h]
      exact content_set_other law x hk v ttl hspares
  | invalidate k' =>
    rw [CacheCall.value, Option.toList_none, List.append_nil, ← h]
    exact law.invalidate_other x.invalidate k' s.base hspares

theorem holds_of_run {calls : List (BaseWorld ω × CacheCall T)}
    {s' : VersionedCache σ} (hempty : law.content s.base = none)
    (hrun : (machine base limit maxEntries).run s calls = some s')
    (hspares : (machine base limit maxEntries).AllSteps (Spares maxEntries k) s calls) :
    Holds law limit s' (CacheCall.values k calls) := by
  have hruns := (machine base limit maxEntries).run_history_of_allSteps
    (I := Holds law limit) (h := []) (fun _ a => a.2.value k) ?_ hrun hspares
    hempty
  · rw [List.nil_append, Machine.emitted_eq_filterMap _ _ hrun] at hruns
    exact hruns
  · intro s₁ values a s₂ h hspare hstep
    cases hstep
    exact h.after law a.1 hspare

/-! ## Reading the past -/

/-- Take any limit and any run of calls that starts without the key and does not
remove it, and in which the values set for the key have non-decreasing
timestamps, and let the base keep the key.  Then `Get` returns the last value
set; and `GetAt` returns the last retained value that is not after the given
time, whose timestamp is the greatest such, and finds none exactly if all
retained values are after it. -/
theorem getAt_retained {calls : List (BaseWorld ω × CacheCall T)}
    {s' : VersionedCache σ} (hempty : law.content s.base = none)
    (hrun : (machine base limit maxEntries).run s calls = some s')
    (hspares : (machine base limit maxEntries).AllSteps (Spares maxEntries k) s calls)
    (hsorted : (CacheCall.values k calls).Pairwise
      fun v w => v.timestamp ≤ w.timestamp) (x : BaseWorld ω) :
    (exec (get base x k) s').1 = .ok (CacheCall.values k calls).getLast? ∧
      ∀ t, ∃ found, (exec (getAt base x k t) s').1 = .ok found ∧
        (∀ v, found = some v ↔ ∃ before after,
          VersionedValue.retained limit (CacheCall.values k calls) = before ++ v :: after ∧
          v.timestamp ≤ t ∧ ∀ w ∈ after, t < w.timestamp) ∧
        (∀ v, found = some v → ∀ w ∈ VersionedValue.retained limit (CacheCall.values k calls),
            w.timestamp ≤ t → w.timestamp ≤ v.timestamp) ∧
        (found = none ↔ ∀ w ∈ VersionedValue.retained limit (CacheCall.values k calls),
            t < w.timestamp) := by
  have hholds := holds_of_run law hempty hrun hspares
  obtain ⟨b, hget, -⟩ := law.get x.get s'.base
  rw [show law.content s'.base = _ from hholds] at hget
  constructor
  · rw [get, exec_lookup_of_base VersionedValue.latest hget, VersionedValue.latest_holding]
  · intro t
    refine ⟨VersionedValue.versionAt
        ⟨VersionedValue.retained limit (CacheCall.values k calls), limit⟩ t, ?_,
      fun v => VersionedValue.versionAt_eq_some_iff,
      fun v hfound w hw hle => ?_, VersionedValue.versionAt_eq_none_iff⟩
    · rw [getAt, exec_lookup_of_base (fun vv => vv.versionAt t) hget,
        VersionedValue.versionAt_holding]
    · refine VersionedValue.timestamp_le_of_versionAt ?_ hfound hw hle
      exact hsorted.sublist (VersionedValue.retained_suffix limit _).sublist

/-- Three values of one key, the last two at the same time, with another key in
between; two versions of a key are kept. -/
def threeValues : List (BaseWorld Unit × CacheCall ℕ) :=
  [(⟨(), (), ()⟩, .set "k" (.written 1 10) 0), (⟨(), (), ()⟩, .set "k" (.written 2 20) 0),
    (⟨(), (), ()⟩, .set "other" (.written 7 15) 0),
    (⟨(), (), ()⟩, .set "k" (.written 3 20) 0)]

theorem getAt_retained_threeValues : ∃ s' : VersionedCache (Key → Option (VersionedValue ℕ)),
      (machine keepingOps 2 0).run ⟨fun _ => none, []⟩ threeValues = some s' ∧
      (exec (get keepingOps ⟨(), (), ()⟩ "k") s').1 = .ok (some (.written 3 20)) ∧
      (exec (getAt keepingOps ⟨(), (), ()⟩ "k" 25) s').1 = .ok (some (.written 3 20)) ∧
      (exec (getAt keepingOps ⟨(), (), ()⟩ "k" 15) s').1 = .ok none := by
  have hspares : (machine keepingOps 2 0).AllSteps (Spares 0 "k")
      (⟨fun _ => none, []⟩ : VersionedCache (Key → Option (VersionedValue ℕ)))
      threeValues := by
    apply Machine.allSteps_of_states
    simp [threeValues, Spares, evicted_of_unlimited]
  obtain ⟨hget, hgetAt⟩ := getAt_retained (keeping_keepingOps.forKey "k") rfl
    rfl hspares (by decide) ⟨(), (), ()⟩
  obtain ⟨found, hfound, hsome, -⟩ := hgetAt 25
  obtain ⟨found', hfound', -, -, hnone⟩ := hgetAt 15
  refine ⟨_, rfl, hget, ?_, ?_⟩
  · rw [hfound, (hsome (.written 3 20)).mpr ⟨[.written 2 20], [], rfl, by decide, nofun⟩]
  · rw [hfound', hnone.mpr (by decide)]

end VersionedCache

end GoWarp.Core
