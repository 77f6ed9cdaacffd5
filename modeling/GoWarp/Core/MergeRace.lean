import GoWarp.Core.Coherence
import GoWarp.Core.KeyOps
import Mathlib.Data.Finset.Fold

/-!
# Concurrent writes of a key with a merge function

A `Set` of a key whose merge function adds up, say, reads the cached or stored
value, merges its own into it, and writes the result to the cache and then to
the store.  Nothing keeps another `Set` from reading between the read and the
write, and then one of the two merges is lost.

Runs in which the reads and writes of the calls do not cross lose nothing.
The account of such a run is the value that the calls merged so far have
reached, together with the values of the calls that have yet to be merged.
-/

namespace GoWarp.Core

open Support Support.Program
open Function (update update_of_ne update_self forall_update_iff)

variable {T : Type}

namespace System

/-- The machine of the calls on `k` when the clock may stand still. -/
def writers (k : Key) : Machine (System T) (Action T) := fun s a =>
  match s.warp.regs k with
  | none => none
  | some reg => if ∀ t ∈ a.reading, s.clock ≤ t then stepWith k reg s a else none

end System

/-! ## Calls that do not cross -/

namespace Phase

/-- The `Set` has read what it merges with, and has not yet written the merged
value to the cache. -/
def inWindow : Phase T → Bool
  | .setMissed _ _ => true
  | .setMerged _ _ => true
  | _ => false

/-- The `Set` has not yet written the merged value to the cache. -/
def unmerged : Phase T → Bool
  | .idle => true
  | .setCalled _ => true
  | .setTimed _ _ => true
  | .setMissed _ _ => true
  | .setMerged _ _ => true
  | _ => false

/-- A thread that does nothing but a `Set` of `own`: before its cache write,
the value it is going to write is its own merged with `cur`. -/
def Carries (op : T → T → T) (cur : Option T) (own : T) : Phase T → Prop
  | .idle => True
  | .setCalled value => value = own
  | .setTimed value _ => value = own
  | .setMissed value _ => value = own
  | .setMerged newVal _ => some newVal.data = Option.merge op cur (some own)
  | .setCached _ _ _ => True
  | .setStored _ _ => True
  | .returned => True
  | _ => False

end Phase

namespace System

/-- A `Set` reads the cache while no other is between its read and its cache
write, turns to the store while none has cached a value that it has yet to
store, and stores its value while that is the one cached last, or another is
yet to store the one cached last. -/
def Serial (k : Key) (s : System T) : Action T → Prop
  | .cacheGet i _ => ∀ j, j ≠ i → (s.threads j).inWindow = false
  | .storeGet _ => ∀ j newVal now ttl, s.threads j ≠ .setCached newVal now ttl
  | .storeSet i =>
    match s.threads i with
    | .setCached newVal _ _ =>
      ∀ entry, s.warp.cache k = some entry → newVal.data = entry.value.data ∨
          s.OwedBy (fun j => j ≠ i) entry.value.data
    | _ => True
  | _ => True

/-- The calls made are `Set` calls of the values `value i` by the threads below
`n`. -/
def CallsSets (n : ℕ) (value : ℕ → T) : Action T → Prop
  | .call i r => i < n ∧ r = .set (value i)
  | _ => True

/-- The threads below `n` that have yet to write the cache. -/
def unmerged (n : ℕ) (s : System T) : Finset ℕ :=
  (Finset.range n).filter fun i => (s.threads i).unmerged = true

section Account

variable {op : T → T → T} [Std.Associative op] [Std.Commutative op]

/-- The merge of `start` with the values of some threads. -/
def mergeAll (op : T → T → T) [Std.Associative op] [Std.Commutative op]
    (value : ℕ → T) (start : Option T) (threads : Finset ℕ) : Option T :=
  threads.fold (Option.merge op) start fun i => some (value i)

theorem mergeAll_merge (value : ℕ → T) (start : Option T) (x : Option T) (threads : Finset ℕ) :
    mergeAll op value (Option.merge op start x) threads =
      Option.merge op x (mergeAll op value start threads) := by
  have hcomm : ∀ a b, Option.merge op a b = Option.merge op b a := Std.Commutative.comm
  have hassoc : ∀ a b c, Option.merge op (Option.merge op a b) c =
      Option.merge op a (Option.merge op b c) := Std.Associative.assoc
  induction threads using Finset.induction_on with
  | empty => exact hcomm start x
  | insert i threads hi ih =>
    have hinsert : ∀ start, mergeAll op value start (insert i threads) =
        Option.merge op (some (value i)) (mergeAll op value start threads) :=
      fun _ => Finset.fold_insert hi
    rw [hinsert, hinsert, ih, ← hassoc, ← hassoc, hcomm x]

theorem mergeAll_of_mem (value : ℕ → T) (start : Option T)
    {threads : Finset ℕ} {i : ℕ} (hi : i ∈ threads) :
    mergeAll op value start threads = mergeAll op value (Option.merge op start (some (value i)))
        (threads.erase i) := by
  rw [mergeAll_merge, mergeAll, ← Finset.insert_erase hi,
    Finset.fold_insert (Finset.notMem_erase i threads),
    Finset.erase_insert (Finset.notMem_erase i threads)]
  rfl

/-- The account of a run that began with `start`: the calls merged so far have
reached `cur`. -/
structure Account (op : T → T → T) [Std.Associative op] [Std.Commutative op]
    (k : Key) (n : ℕ) (value : ℕ → T) (start : Option T) (s : System T)
    (cur : Option T) : Prop where
  registered : (s.warp.regs k).isSome = true
  hasStore : s.warp.storeKind ≠ .absent
  merges : ∃ fn, s.warp.merges k = some fn ∧ ∀ a b, fn a b = some (op a b)
  flight : s.flight = none
  called : ∀ i, s.threads i ≠ .idle → i < n
  carries : ∀ i, (s.threads i).Carries op cur (value i)
  /-- at most one call is between its read and its cache write -/
  alone : ∀ i j, (s.threads i).inWindow = true → (s.threads j).inWindow = true → i = j
  /-- the calls that have yet to be merged make up the rest -/
  total : mergeAll op value start (Finset.range n) = mergeAll op value cur (s.unmerged n)
  cached : ∀ v, s.warp.cache.get s.clock k = some v → cur = some v.data
  stored : s.warp.store k = cur ∨ ∃ data, cur = some data ∧ s.Owed data
  /-- while a call has yet to store, the value reached is the one cached last -/
  last : ∀ i newVal now ttl, s.threads i = .setCached newVal now ttl →
    ∃ entry, s.warp.cache k = some entry ∧ cur = some entry.value.data

end Account

/-! ## Steps that write neither the cache nor the store -/

/-- The thread `i` moves on to `ph`, and the cache and the store of `k` are not
written. -/
structure Moves (k : Key) (i : ℕ) (ph : Phase T) (s s' : System T) : Prop where
  cache : s'.warp.cache k = s.warp.cache k
  store : s'.warp.store k = s.warp.store k
  registered : (s'.warp.regs k).isSome = (s.warp.regs k).isSome
  storeKind : s'.warp.storeKind = s.warp.storeKind
  merges : s'.warp.merges = s.warp.merges
  flight : s'.flight = s.flight
  clock : s.clock ≤ s'.clock
  threads : s'.threads = update s.threads i ph

theorem moves_goto (k : Key) (s : System T) (i : ℕ) (ph : Phase T) : Moves k i ph s (s.goto i ph) :=
  ⟨rfl, rfl, rfl, rfl, rfl, rfl, Int.le_refl _, rfl⟩

theorem moves_tick (k : Key) (s : System T) {t : Instant} (ht : s.clock ≤ t)
    (i : ℕ) (ph : Phase T) : Moves k i ph s ((s.tick t).goto i ph) :=
  ⟨rfl, rfl, rfl, rfl, rfl, rfl, ht, rfl⟩

namespace Moves

variable {k : Key} {i : ℕ} {ph : Phase T} {s s' : System T}

variable (h : Moves k i ph s s')
include h

theorem threads_self : s'.threads i = ph := by rw [h.threads, update_self]

theorem threads_of_ne {j : ℕ} (hj : j ≠ i) : s'.threads j = s.threads j := by
  rw [h.threads, update_of_ne hj]

theorem owed (hi : s.Settled i) {data : T} (howed : s.Owed data) : s'.Owed data := by
  obtain ⟨j, newVal, now, ttl, _, hj, hdata⟩ := howed
  have hne : j ≠ i := fun heq => hi newVal now ttl (heq ▸ hj)
  exact ⟨j, newVal, now, ttl, trivial, (h.threads_of_ne hne).trans hj, hdata⟩

end Moves

theorem unmerged_congr {s s' : System T} {i : ℕ} {ph : Phase T}
    (hthreads : s'.threads = update s.threads i ph)
    (hph : ph.unmerged = (s.threads i).unmerged) (n : ℕ) :
    s'.unmerged n = s.unmerged n := by
  refine Finset.filter_congr fun j _ => ?_
  rw [hthreads]
  by_cases hj : j = i
  · rw [hj, update_self, hph]
  · rw [update_of_ne hj]

theorem unmerged_update {s s' : System T} {i : ℕ} {ph : Phase T} (hph : ph.unmerged = false)
    (hthreads : s'.threads = update s.threads i ph) (n : ℕ) :
    s'.unmerged n = (s.unmerged n).erase i := by
  ext j
  rw [Finset.mem_erase, unmerged, unmerged, Finset.mem_filter, Finset.mem_filter, hthreads]
  by_cases hj : j = i
  · subst hj
    simp [hph]
  · simp [hj]

namespace Account

variable {op : T → T → T} [Std.Associative op] [Std.Commutative op] {k : Key}
  {n : ℕ} {value : ℕ → T} {start cur : Option T} {s s' : System T} {i : ℕ}

section

variable (h : Account op k n value start s cur)
include h

theorem threads_update {ph : Phase T} (hthreads : s'.threads = update s.threads i ph)
    (hunmerged : ph.unmerged = (s.threads i).unmerged)
    (hcalled : i < n) (hcarries : ph.Carries op cur (value i))
    (halone : ph.inWindow = true → ∀ j, j ≠ i → (s.threads j).inWindow = false) :
    (∀ j, s'.threads j ≠ .idle → j < n) ∧ (∀ j, (s'.threads j).Carries op cur (value j)) ∧
      (∀ j j', (s'.threads j).inWindow = true → (s'.threads j').inWindow = true → j = j') ∧
      mergeAll op value start (Finset.range n) = mergeAll op value cur (s'.unmerged n) := by
  refine ⟨?_, ?_, ?_, ?_⟩
  · rw [hthreads]
    exact (forall_update_iff s.threads fun j ph =>
      ph ≠ .idle → j < n).mpr ⟨fun _ => hcalled, fun j _ => h.called j⟩
  · rw [hthreads]
    exact (forall_update_iff s.threads fun j ph =>
      ph.Carries op cur (value j)).mpr ⟨hcarries, fun j _ => h.carries j⟩
  · have hself : s'.threads i = ph := by rw [hthreads, update_self]
    have hother : ∀ j, j ≠ i → s'.threads j = s.threads j := by
      intro j hj
      rw [hthreads, update_of_ne hj]
    intro j j' hj hj'
    by_cases hne : j = i
    · by_cases hne' : j' = i
      · rw [hne, hne']
      · rw [hne, hself] at hj
        rw [hother j' hne', halone hj j' hne'] at hj'
        cases hj'
    · rw [hother j hne] at hj
      by_cases hne' : j' = i
      · rw [hne', hself] at hj'
        rw [halone hj' j hne] at hj
        cases hj
      · exact h.alone j j' hj (hother j' hne' ▸ hj')
  · rw [unmerged_congr hthreads hunmerged]
    exact h.total

theorem moves {ph : Phase T} (hmoves : Moves k i ph s s') (hi : s.Settled i)
    (hph : ∀ newVal now ttl, ph ≠ .setCached newVal now ttl)
    (hunmerged : ph.unmerged = (s.threads i).unmerged)
    (hcalled : i < n) (hcarries : ph.Carries op cur (value i))
    (halone : ph.inWindow = true → ∀ j, j ≠ i → (s.threads j).inWindow = false) :
    Account op k n value start s' cur := by
  obtain ⟨hcalled', hcarries', halone', htotal⟩ :=
    h.threads_update hmoves.threads hunmerged hcalled hcarries halone
  refine ⟨hmoves.registered.trans h.registered, hmoves.storeKind ▸ h.hasStore,
    hmoves.merges ▸ h.merges, hmoves.flight.trans h.flight, hcalled',
    hcarries', halone', htotal, ?_, ?_, ?_⟩
  · intro v hv
    refine h.cached v (Cache.get_of_le hmoves.clock ?_)
    rw [Cache.get, ← hmoves.cache]
    exact hv
  · rw [hmoves.store]
    refine h.stored.imp id ?_
    rintro ⟨data, hdata, howed⟩
    exact ⟨data, hdata, hmoves.owed hi howed⟩
  · intro j newVal now ttl hj
    rw [hmoves.cache]
    by_cases hne : j = i
    · rw [hne, hmoves.threads_self] at hj
      exact absurd hj (hph newVal now ttl)
    · exact h.last j newVal now ttl (hmoves.threads_of_ne hne ▸ hj)

theorem carries_mergeOver {old : Option (Value T)} (hold : old.map Value.data = cur) (own : T)
    (now : Instant) :
    some (s.warp.merges.mergeOver k old (Value.written own now)).data =
      Option.merge op cur (some own) := by
  obtain ⟨fn, hfn, hop⟩ := h.merges
  subst hold
  cases old with
  | none => rfl
  | some old =>
    rw [Engine.mergeOver, Engine.merge, hfn]
    dsimp only [Value.written]
    rw [hop]
    rfl

theorem callStep (hi : i < n) (hstep : callStep s i (.set (value i)) = some s') :
    Account op k n value start s' cur := by
  rw [System.callStep] at hstep
  split at hstep
  next hidle =>
    cases hstep
    refine h.moves (moves_goto k s i _) (settled_of_eq hidle (by simp)) ?_ ?_ hi
      rfl ?_
    · simp [Request.firstPhase]
    · rw [hidle]
      rfl
    · exact fun hwindow => absurd hwindow Bool.false_ne_true
  next => cases hstep

variable {t : Instant}

theorem readClockStep (ht : s.clock ≤ t) (hstep : readClockStep s i t = some s') :
    Account op k n value start s' cur := by
  rw [System.readClockStep] at hstep
  split at hstep
  next own hi =>
    cases hstep
    have hcarries := h.carries i
    rw [hi] at hcarries
    refine h.moves (moves_tick k s ht i _) (settled_of_eq hi (by simp)) (by simp)
      ?_ (h.called i (by simp [hi])) hcarries ?_
    · rw [hi]
      rfl
    · exact fun hwindow => absurd hwindow Bool.false_ne_true
  next => cases hstep

theorem cacheGetStep {reg : Registration} (ht : s.clock ≤ t)
    (hserial : ∀ j, j ≠ i → (s.threads j).inWindow = false)
    (hstep : cacheGetStep k reg s i t = some s') :
    Account op k n value start s' cur := by
  have hcarries := h.carries i
  rw [System.cacheGetStep] at hstep
  split at hstep
  next own now old hi hget =>
    cases hstep
    rw [hi] at hcarries
    obtain rfl : own = value i := hcarries
    refine h.moves (moves_tick k s ht i _) (settled_of_eq hi (by simp)) (by simp)
      ?_ (h.called i (by simp [hi])) ?_ fun _ => hserial
    · rw [hi]
      rfl
    · refine h.carries_mergeOver ?_ _ now
      rw [h.cached old (Cache.get_of_le ht hget)]
      rfl
  next own now hi hget =>
    obtain ⟨fn, hfn, _⟩ := h.merges
    have hturns : s.warp.storeKind ≠ .absent ∧ s.warp.merges.hasCustom k = true := by
      refine ⟨h.hasStore, ?_⟩
      rw [Engine.hasCustom, hfn]
      rfl
    rw [if_pos hturns] at hstep
    cases hstep
    rw [hi] at hcarries
    refine h.moves (moves_tick k s ht i _) (settled_of_eq hi (by simp)) (by simp)
      ?_ (h.called i (by simp [hi])) hcarries fun _ => hserial
    rw [hi]
    rfl
  next v hi hget =>
    rw [hi] at hcarries
    exact hcarries.elim
  next hi hget =>
    rw [hi] at hcarries
    exact hcarries.elim
  next => cases hstep

theorem storeGetStep (hserial : ∀ j newVal now ttl, s.threads j ≠ .setCached newVal now ttl)
    (hstep : storeGetStep k s i = some s') :
    Account op k n value start s' cur := by
  have hcarries := h.carries i
  have hstored : s.warp.store k = cur := by
    rcases h.stored with hstored | ⟨data, _, j, newVal, now, ttl, _, hj, _⟩
    · exact hstored
    · exact absurd hj (hserial j newVal now ttl)
  rw [System.storeGetStep] at hstep
  split at hstep
  next own now hi =>
    cases hstep
    rw [hi] at hcarries
    obtain rfl : own = value i := hcarries
    refine h.moves (moves_goto k s i _) (settled_of_eq hi (by simp)) (by simp)
      ?_ (h.called i (by simp [hi])) ?_ ?_
    · rw [hi]
      rfl
    · refine h.carries_mergeOver ?_ _ now
      rw [Option.map_map, ← hstored]
      exact Option.map_id'
    · intro _ j hne
      rw [← Bool.not_eq_true]
      intro hj
      exact hne (h.alone j i hj (by rw [hi]; rfl))
  next => cases hstep

theorem touchStep (hstep : touchStep k s i = some s') : Account op k n value start s' cur := by
  rw [System.touchStep] at hstep
  split at hstep
  next now ttl hi =>
    cases hstep
    have hmoves : Moves k i .returned s
        ((s.onWarp fun w => w.touch k ttl now).goto i .returned) := by
      refine ⟨rfl, rfl, ?_, rfl, rfl, rfl, Int.le_refl _, rfl⟩
      change (update s.warp.regs k _ k).isSome = _
      rw [update_self, Option.isSome_map]
    refine h.moves hmoves (settled_of_eq hi (by simp)) (by simp) ?_
      (h.called i (by simp [hi])) trivial ?_
    · rw [hi]
      rfl
    · exact fun hwindow => absurd hwindow Bool.false_ne_true
  next => cases hstep

/-! ## The two writes -/

theorem afterWrite {newVal : Value T} {now : Instant} (hi : s.threads i = .setMerged newVal now)
    {ttl ttl' : Duration} :
    Account op k n value start (s.afterWrite k i t newVal ttl (.setCached newVal now ttl'))
      (some newVal.data) := by
  have hcarries := h.carries i
  rw [hi] at hcarries
  have hself : (s.afterWrite k i t newVal ttl (.setCached newVal now ttl')).threads
      i = .setCached newVal now ttl' := update_self _ _ _
  have hother : ∀ j, j ≠ i →
      (s.afterWrite k i t newVal ttl (.setCached newVal now ttl')).threads j =
        s.threads j := fun j hj => update_of_ne hj _ _
  have hwindow : ∀ j, j ≠ i → (s.threads j).inWindow = false := by
    intro j hj
    rw [← Bool.not_eq_true]
    exact fun hin => hj (h.alone j i hin (by rw [hi]; rfl))
  have hcache : (s.afterWrite k i t newVal ttl (.setCached newVal now ttl')).warp.cache k =
      some (Cache.newEntry t newVal ttl) := update_self _ _ _
  refine ⟨h.registered, h.hasStore, h.merges, h.flight, ?_, ?_, ?_, ?_, ?_, ?_, ?_⟩
  · exact (forall_update_iff s.threads fun j ph =>
      ph ≠ .idle → j < n).mpr ⟨fun _ => h.called i (by simp [hi]), fun j _ => h.called j⟩
  · refine (forall_update_iff s.threads fun j ph =>
      ph.Carries op (some newVal.data) (value j)).mpr ⟨trivial, ?_⟩
    -- the others have not read anything they could merge with yet
    intro j hne
    have hj := h.carries j
    have hin := hwindow j hne
    cases hph : s.threads j <;> rw [hph] at hj hin
    case setMerged => cases hin
    all_goals exact hj
  · intro j j' hj
    by_cases hne : j = i
    · rw [hne, hself] at hj
      cases hj
    · rw [hother j hne, hwindow j hne] at hj
      cases hj
  · have hmem : i ∈ s.unmerged n := by
      rw [System.unmerged, Finset.mem_filter, Finset.mem_range]
      exact ⟨h.called i (by simp [hi]), by rw [hi]; rfl⟩
    rw [h.total, mergeAll_of_mem value cur hmem, ← hcarries]
    exact congrArg _ (unmerged_update rfl rfl n).symm
  · intro v hv
    have hget : (Cache.newEntry t newVal ttl).live t = some v := by
      rw [Cache.get, hcache] at hv
      exact hv
    rw [Cache.live_newEntry] at hget
    rw [Option.some.inj hget]
  · exact .inr ⟨newVal.data, rfl, i, newVal, now, ttl', trivial, hself, rfl⟩
  · intro _ _ _ _ _
    exact ⟨_, hcache, rfl⟩

theorem cacheSetStep {reg : Registration} {d : Duration}
    (hstep : cacheSetStep k reg s i t d = some s') :
    ∃ cur, Account op k n value start s' cur := by
  have hcarries := h.carries i
  rw [System.cacheSetStep] at hstep
  split at hstep
  next newVal now hi =>
    cases hstep
    exact ⟨_, h.afterWrite hi⟩
  next _ _ _ hi =>
    rw [hi] at hcarries
    exact hcarries.elim
  next _ _ _ hi =>
    rw [hi] at hcarries
    exact hcarries.elim
  next => cases hstep

theorem storeSetStep (hserial : Serial k s (.storeSet i)) (hstep : storeSetStep k s i = some s') :
    Account op k n value start s' cur := by
  rw [System.storeSetStep] at hstep
  split at hstep
  swap
  next => cases hstep
  next newVal now ttl hi =>
    rw [if_pos h.hasStore] at hstep
    cases hstep
    rw [Serial, hi] at hserial
    obtain ⟨entry, hentry, hcur⟩ := h.last i newVal now ttl hi
    have hthreads : ((s.onWarp fun w => w.storeSet k newVal.data).goto i
        (.setStored now ttl)).threads =
        update s.threads i (.setStored now ttl) := rfl
    obtain ⟨hcalled, hcarries, halone, htotal⟩ := h.threads_update hthreads
      (by rw [hi]; rfl) (h.called i (by simp [hi])) trivial
      (absurd · Bool.false_ne_true)
    refine ⟨h.registered, h.hasStore, h.merges, h.flight, hcalled, hcarries,
      halone, htotal, h.cached, ?_, ?_⟩
    · rcases hserial entry hentry with hdata | ⟨j, w, now', ttl', hne, hj, hw⟩
      · left
        rw [hcur, ← hdata]
        exact update_self _ _ _
      · right
        exact ⟨entry.value.data, hcur, j, w, now', ttl', trivial,
          (update_of_ne hne _ _).trans hj, hw⟩
    · intro j newVal' now' ttl' hj
      exact ⟨entry, hentry, hcur⟩

/-! ## Runs -/

theorem step {a : Action T} (hserial : Serial k s a) (hcalls : CallsSets n value a)
    (hstep : writers k s a = some s') :
    ∃ cur, Account op k n value start s' cur := by
  rw [writers] at hstep
  split at hstep
  next => cases hstep
  next reg _ =>
  split at hstep
  swap
  next => cases hstep
  next hclock =>
  have hset : ∀ {i ph}, s.threads i = ph → ¬ph.Carries op cur (value i) →
      False := by
    intro i ph hi hnot
    exact hnot (hi ▸ h.carries i)
  cases a with
  | call i r =>
    obtain ⟨hi, rfl⟩ := hcalls
    exact ⟨cur, h.callStep hi hstep⟩
  | readClock i t => exact ⟨cur, h.readClockStep (hclock t rfl) hstep⟩
  | cacheGet i t => exact ⟨cur, h.cacheGetStep (hclock t rfl) hserial hstep⟩
  | storeGet i => exact ⟨cur, h.storeGetStep hserial hstep⟩
  | cacheSet i t d => exact h.cacheSetStep hstep
  | storeSet i => exact ⟨cur, h.storeSetStep hserial hstep⟩
  | touch i => exact ⟨cur, h.touchStep hstep⟩
  | inspect i t =>
    rw [stepWith, inspectStep] at hstep
    split at hstep
    next v hi => exact (hset hi id).elim
    next => cases hstep
  | join i =>
    rw [stepWith, joinStep] at hstep
    split at hstep
    next p hi => exact (hset hi id).elim
    next => cases hstep
  | flightRead =>
    rw [stepWith, flightReadStep, h.flight] at hstep
    cases hstep
  | flightFinish t =>
    rw [stepWith, flightFinishStep, h.flight] at hstep
    cases hstep
  | softTimeout i =>
    rw [stepWith, softTimeoutStep] at hstep
    split at hstep
    swap
    next => cases hstep
    next =>
      split at hstep
      next _ _ hi => exact (hset hi id).elim
      next _ _ _ hi => exact (hset hi id).elim
      next => cases hstep
  | receive i d =>
    rw [stepWith, receiveStep] at hstep
    split at hstep
    next _ hi => exact (hset hi id).elim
    next _ hi => exact (hset hi id).elim
    next _ _ _ hi => exact (hset hi id).elim
    next _ _ hi => exact (hset hi id).elim
    next _ _ hi => exact (hset hi id).elim
    next => cases hstep
  | slide i d =>
    rw [stepWith, slideStep] at hstep
    split at hstep
    next _ _ hi => exact (hset hi id).elim
    next => cases hstep
  | eager i j =>
    rw [stepWith, eagerStep] at hstep
    split at hstep
    next _ _ hi _ => exact (hset hi id).elim
    next => cases hstep

end

theorem initial {fn : MergeFn T} (hinit : s.Initial k) (hregistered : (s.warp.regs k).isSome = true)
    (hfn : s.warp.merges k = some fn) (hop : ∀ a b, fn a b = some (op a b))
    (n : ℕ) (value : ℕ → T) :
    Account op k n value (s.warp.store k) s (s.warp.store k) where
  registered := hregistered
  hasStore := hinit.hasStore
  merges := ⟨fn, hfn, hop⟩
  flight := hinit.flight
  called i hi := absurd (hinit.idle i) hi
  carries i := by
    rw [hinit.idle i]
    trivial
  alone i j hi := by
    rw [hinit.idle i] at hi
    cases hi
  total := by
    refine congrArg _ ?_
    rw [unmerged, Finset.filter_true_of_mem]
    intro i _
    rw [hinit.idle i]
    rfl
  cached v hv := hinit.cached v hv
  stored := .inl rfl
  last i newVal now ttl hi := by
    rw [hinit.idle i] at hi
    cases hi

theorem settled (h : Account op k n value start s cur)
    (hreturned : ∀ i, i < n → s.threads i = .returned) :
    s.warp.store k = mergeAll op value start (Finset.range n) ∧
      ∀ v, s.warp.cache.get s.clock k = some v → s.warp.store k = some v.data := by
  have hunmerged : s.unmerged n = ∅ := by
    rw [unmerged, Finset.filter_eq_empty_iff]
    intro i hi
    rw [hreturned i (Finset.mem_range.mp hi)]
    exact Bool.false_ne_true
  have hcur : mergeAll op value start (Finset.range n) = cur := by
    rw [h.total, hunmerged]
    rfl
  have hstored : s.warp.store k = cur := by
    rcases h.stored with hstored | ⟨data, _, i, newVal, now, ttl, _, hi, _⟩
    · exact hstored
    · have hlt := h.called i (by rw [hi]; simp)
      rw [hreturned i hlt] at hi
      cases hi
  refine ⟨hstored.trans hcur.symm, fun v hv => ?_⟩
  rw [hstored]
  exact h.cached v hv

end Account

/-! ## The theorem -/

/-- When `n` calls of `Set` that do not cross have returned, `Get` returns the
initial value merged with the values of all of them. -/
theorem get_after_serial_sets {op : T → T → T} [Std.Associative op]
    [Std.Commutative op] {k : Key} {s s' : System T} {as : List (Action T)}
    {fn : MergeFn T} (hinit : s.Initial k)
    (hregistered : (s.warp.regs k).isSome = true)
    (hfn : s.warp.merges k = some fn) (hop : ∀ a b, fn a b = some (op a b))
    (n : ℕ) (value : ℕ → T) (hcalls : ∀ a ∈ as, CallsSets n value a)
    (hrun : (writers k).run s as = some s')
    (hserial : (writers k).AllSteps (Serial k) s as)
    (hreturned : ∀ i, i < n → s'.threads i = .returned) (env : Env)
    (hworking : ∀ c, env.fails c = none)
    (hclock : s'.clock ≤ env.clock (.call (.cacheGet k))) :
    (s'.warp.get env k).1 = Warp.Reply.ofStored
      (mergeAll op value (s.warp.store k) (Finset.range n)) := by
  obtain ⟨cur, haccount⟩ := (writers k).run_invariant_of_allSteps
    (I := fun t => ∃ cur, Account op k n value (s.warp.store k) t cur)
    (fun t a t' ⟨cur, h⟩ ha hstep => h.step ha.1 ha.2 hstep) hrun
    (hserial.and ((writers k).allSteps_of_forall hcalls s))
    ⟨_, Account.initial hinit hregistered hfn hop n value⟩
  obtain ⟨hstored, hcoherent⟩ := haccount.settled hreturned
  obtain ⟨reg, hreg⟩ := Option.isSome_iff_exists.mp haccount.registered
  rw [Warp.get_of_coherent hreg haccount.hasStore hworking, hstored]
  exact fun v hv => hcoherent v (Cache.get_of_le hclock hv)

/-! ## Two increments -/

/-- A counter that stands at 10 in the store and is not cached. -/
def tallySystem : System ℕ where
  warp := { coldWarp with
    store := fun _ => some 10
    merges := fun _ => some fun old new => some (old + new) }
  clock := 0
  flight := none
  threads := fun _ => .idle

theorem initial_tallySystem : tallySystem.Initial "k" where
  idle := fun _ => rfl
  flight := rfl
  hasStore := by decide
  cached := fun v hv => by cases hv

/-- Both calls read the counter before either writes it. -/
def crossedSets : List (Action ℕ) :=
  [.call 0 (.set 1), .call 1 (.set 1), .readClock 0 1, .readClock 1 1,
    .cacheGet 0 2, .cacheGet 1 2, .storeGet 0, .storeGet 1, .cacheSet 0 3 0,
    .storeSet 0, .touch 0, .cacheSet 1 4 0, .storeSet 1, .touch 1]

/-- Afterwards the counter stands at 11 instead of 12. -/
theorem merge_lost_crossedSets : ∃ s, (writers "k").run tallySystem crossedSets = some s ∧
      (∀ i, i < 2 → s.threads i = .returned) ∧
      (s.warp.get { Warp.workingEnv with clock := fun _ => 5 } "k").1 =
        Warp.Reply.found 11 := by
  refine ⟨_, rfl, ?_, by decide⟩
  intro i hi
  rcases i with _ | _ | i
  · rfl
  · rfl
  · omega

/-- The second call reads what the first has cached, and caches its own before
the first has stored anything. -/
def overlappingSets : List (Action ℕ) :=
  [.call 0 (.set 1), .call 1 (.set 1), .readClock 0 1, .readClock 1 1,
    .cacheGet 0 2, .storeGet 0, .cacheSet 0 3 0, .cacheGet 1 3,
    .cacheSet 1 3 0, .storeSet 0, .storeSet 1, .touch 0, .touch 1]

theorem serial_overlappingSets :
    (writers "k").AllSteps (Serial "k") tallySystem overlappingSets := by
  refine .cons trivial rfl ?_
  refine .cons trivial rfl ?_
  refine .cons trivial rfl ?_
  refine .cons trivial rfl ?_
  refine .cons ?_ rfl ?_
  · rintro (_ | _ | j) _ <;> rfl
  refine .cons ?_ rfl ?_
  · rintro (_ | _ | j) _ _ _ hj <;> cases hj
  refine .cons trivial rfl ?_
  refine .cons ?_ rfl ?_
  · rintro (_ | _ | j) _ <;> rfl
  refine .cons trivial rfl ?_
  refine .cons ?_ rfl ?_
  · -- the first call stores 11 while the second owes the store 12
    intro entry hentry
    cases hentry
    exact .inr ⟨1, _, _, _, Nat.one_ne_zero, rfl, rfl⟩
  refine .cons ?_ rfl ?_
  · intro entry hentry
    cases hentry
    exact .inl rfl
  refine .cons trivial rfl ?_
  exact .cons trivial rfl trivial

theorem get_after_overlappingSets : ∃ s, (writers "k").run tallySystem overlappingSets = some s ∧
      (s.warp.get { Warp.workingEnv with clock := fun _ => 5 } "k").1 =
        Warp.Reply.found 12 := by
  refine ⟨_, rfl, ?_⟩
  refine get_after_serial_sets (T := ℕ) initial_tallySystem rfl rfl
    (fun _ _ => rfl) 2 (fun _ => 1) ?_
    (rfl : (writers "k").run tallySystem overlappingSets = some _)
    serial_overlappingSets ?_ { Warp.workingEnv with clock := fun _ => 5 }
    (fun _ => rfl) (by decide)
  · simp [overlappingSets, CallsSets]
  · rintro (_ | _ | i) hi
    · rfl
    · rfl
    · omega

end System

end GoWarp.Core
