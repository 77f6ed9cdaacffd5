import GoWarp.Core.Loading
import Mathlib.Data.List.Induction

/-!
# What a commit leaves

A transaction over keys in `ModeStrongLocal` with no failing component.  The
commit visits every queued key once, and its visit of a key does not concern
any other key, so that the order of the visits does not matter: what is left
for a key depends on what is queued for it only.
-/

namespace GoWarp.Core

open Support Support.Program Support.Step

variable {T : Type}

/-- What a running commit holds for one key: the cached entry, the stored
value, and in the batch the value set and whether the key is deleted. -/
structure Slot (T : Type) where
  cached : Option (CacheEntry T)
  stored : Option T
  staged : Option (Option T × Bool)

namespace Slot

def set (kind : StoreKind) (entry : CacheEntry T) (x : Slot T) : Slot T :=
  match kind with
  | .batcher =>
    ⟨some entry, x.stored, x.staged.map fun d => (some entry.value.data, d.2)⟩
  | .plain => ⟨some entry, some entry.value.data, x.staged⟩
  | .absent => ⟨some entry, x.stored, x.staged⟩

def delete (kind : StoreKind) (x : Slot T) : Slot T :=
  ⟨none, x.stored, if kind = .batcher then x.staged.map fun d => (d.1, true)
    else x.staged⟩

/-- The stored value after the batch has been committed. -/
def committed (x : Slot T) : Option T :=
  match x.staged with
  | some (some data, _) => some data
  | some (none, true) => none
  | _ => x.stored

end Slot

def CommitState.slot (k : Key) (s : CommitState T) : Slot T :=
  ⟨s.warp.cache k, s.warp.store k, s.batch.map fun b => (b.sets k, decide (k ∈ b.deletes))⟩

/-- The entry that the set of a key leaves in the cache. -/
def committedEntry (w : Warp T) (env : Env) (k : Key) (value : T)
    (reg : Registration) : CacheEntry T :=
  Cache.newEntry (env.clock (.call (.cacheSet k)))
    (plannedSet w env k value reg).value (env.effectiveTTL k reg)

section Steps

variable {w : Warp T} {env : Env} {t : Instant} {k : Key} {s : CommitState T}

theorem slot_applySetSteps_of_ne {p : PendingSet T} (hk : p.key ≠ k) :
    (effects (applySetSteps w env t p) s).slot k = s.slot k := by
  have hcache : ((cacheSetStep w env t p).effect s).slot k = s.slot k := by
    change CommitState.slot k (s.onWarp fun w => w.cacheSet env p.key _ _) = _
    rw [CommitState.onWarp, Warp.cacheSet]
    split
    · rfl
    · simp [CommitState.slot, Cache.set, Function.update_of_ne (.symm hk)]
  have hbatch : ∀ s : CommitState T, ((batchSetStep env p).effect s).slot k = s.slot k := by
    intro s
    simp [CommitState.slot, batchSetStep, CommitState.onBatch, Batch.set,
      Function.comp_def, Function.update_of_ne (.symm hk)]
  have hstore : ∀ s : CommitState T, ((storeSetStep env p).effect s).slot k = s.slot k := by
    intro s
    simp [CommitState.slot, storeSetStep, CommitState.onWarp, Warp.storeSet,
      Function.update_of_ne (.symm hk)]
  have htouch : ∀ s : CommitState T, ((touchStep p).effect s).slot k = s.slot k := fun _ => rfl
  rw [applySetSteps]
  cases w.storeKind with
  | batcher => exact (htouch _).trans ((hbatch _).trans hcache)
  | plain => exact (htouch _).trans ((hstore _).trans hcache)
  | absent => exact (htouch _).trans hcache

theorem slot_applySetSteps_self (hworking : ∀ c, env.fails c = none) (p : PendingSet T) :
    (effects (applySetSteps w env t p) s).slot p.key = (s.slot p.key).set w.storeKind
        (Cache.newEntry (env.clock (.call (.cacheSet p.key))) p.value p.ttl) := by
  rw [applySetSteps]
  cases w.storeKind with
  | batcher =>
    simp [CommitState.slot, Slot.set, cacheSetStep, batchSetStep, touchStep,
      CommitState.onWarp, CommitState.onBatch, Warp.cacheSet, hworking,
      Cache.set, Cache.newEntry, Batch.set, Warp.touch, Function.comp_def]
  | plain =>
    simp [CommitState.slot, Slot.set, cacheSetStep, storeSetStep, touchStep,
      CommitState.onWarp, Warp.cacheSet, hworking, Cache.set, Cache.newEntry,
      Warp.storeSet, Warp.touch]
  | absent =>
    simp [CommitState.slot, Slot.set, cacheSetStep, touchStep,
      CommitState.onWarp, Warp.cacheSet, hworking, Cache.set, Cache.newEntry,
      Warp.touch]

theorem slot_applyDeleteSteps_of_ne {k' : Key} (hk : k' ≠ k) :
    (effects (applyDeleteSteps w env k') s).slot k = s.slot k := by
  have hcache : ((cacheInvalidateStep w env k').effect s).slot k =
      s.slot k := by
    change CommitState.slot k (s.onWarp fun w => w.cacheInvalidate env k') = _
    rw [CommitState.onWarp, Warp.cacheInvalidate]
    split
    · rfl
    · simp [CommitState.slot, Cache.invalidate, Function.update_of_ne (.symm hk)]
  have hbatch : ∀ s : CommitState T, ((batchDeleteStep env k').effect s).slot k = s.slot k := by
    intro s
    simp [CommitState.slot, batchDeleteStep, CommitState.onBatch, Batch.delete,
      Function.comp_def, Ne.symm hk]
  rw [applyDeleteSteps]
  split
  · exact (hbatch _).trans hcache
  · exact hcache

theorem slot_applyDeleteSteps_self (hworking : ∀ c, env.fails c = none) (k : Key) :
    (effects (applyDeleteSteps w env k) s).slot k = (s.slot k).delete w.storeKind := by
  rw [applyDeleteSteps]
  by_cases hkind : w.storeKind = .batcher
  · simp [CommitState.slot, Slot.delete, cacheInvalidateStep, batchDeleteStep,
      CommitState.onWarp, CommitState.onBatch, Warp.cacheInvalidate, hworking,
      Cache.invalidate, Batch.delete, Function.comp_def, hkind]
  · simp [CommitState.slot, Slot.delete, cacheInvalidateStep,
      CommitState.onWarp, Warp.cacheInvalidate, hworking, Cache.invalidate,
      hkind]

end Steps

/-! ## Local transactions -/

/-- Nothing fails, every queued key is registered in `ModeStrongLocal`, and
every expected value is the cached one. -/
structure Txn.Local [DecidableEq T] (w : Warp T) (env : Env) (txn : Txn T) : Prop where
  working : ∀ c, env.fails c = none
  registered : ∀ k, txn.HasKey k → ∃ reg, w.regs k = some reg ∧ reg.mode = .strongLocal
  swaps : ∀ k, txn.casFault k (readValue w env k) = none

namespace Txn.Local

variable {w : Warp T} {env : Env} {txn : Txn T} {k : Key} {t : Instant} {value : T}

theorem deleteSteps_eq {reg : Registration} (hreg : w.regs k = some reg)
    (hmode : reg.mode = .strongLocal) :
    deleteSteps w env k = applyDeleteSteps w env k := by
  rw [deleteSteps, hreg]
  dsimp only
  rw [hmode]

/-- The states of a running commit hold the same for `k`. -/
def SameSlot (k : Key) (s s' : CommitState T) : Prop := s'.slot k = s.slot k

theorem SameSlot.trans {s s' s'' : CommitState T} (h : SameSlot k s s')
    (h' : SameSlot k s' s'') : SameSlot k s s'' :=
  Eq.trans h' h

/-- The state in which the loops of a commit begin. -/
def started (w : Warp T) (env : Env) : CommitState T := (openStep w env).effect ⟨w, none⟩

theorem slot_started (w : Warp T) (env : Env) (k : Key) :
    (started w env).slot k = ⟨w.cache k, w.store k,
      if w.storeKind = .batcher then some (none, false) else none⟩ := by
  rw [started, openStep]
  split
  · simp [CommitState.slot, Batch.empty]
  · simp [CommitState.slot, check]

theorem cache_commitStep (s : CommitState T) :
    ((commitStep w env).effect s).warp.cache = s.warp.cache := by
  rw [commitStep]
  split
  · change s.commitBatch.warp.cache = _
    rw [CommitState.commitBatch]
    split
    · rfl
    · rfl
  · rfl

theorem store_commitBatch (s : CommitState T) :
    s.commitBatch.warp.store k = (s.slot k).committed := by
  rw [CommitState.commitBatch, CommitState.slot, Slot.committed]
  rcases s.batch with _ | b
  · rfl
  · dsimp only [Option.map_some]
    rw [Batch.commit]
    rcases b.sets k with _ | data
    · by_cases hdel : k ∈ b.deletes
      · simp [hdel]
      · simp [hdel]
    · rfl

theorem store_commitStep (s : CommitState T) : ((commitStep w env).effect s).warp.store k =
      if w.storeKind = .batcher then (s.slot k).committed
      else (s.slot k).stored := by
  rw [commitStep]
  split
  · exact store_commitBatch s
  · rfl

variable [DecidableEq T]

theorem cacheFault (h : Local w env txn) (c : Call) : w.cacheFault env c = none := by
  rw [Warp.cacheFault, h.working, ite_self]

theorem readFault (h : Local w env txn) : readFault w env k = none := by
  rw [Core.readFault, Warp.cacheGet, h.working]

theorem setSteps_eq {reg : Registration} (hreg : w.regs k = some reg)
    (hmode : reg.mode = .strongLocal) :
    setSteps w env t txn k value = check (Core.readFault w env k) ::
        check (txn.casFault k (readValue w env k)) ::
          applySetSteps w env t (plannedSet w env k value reg) := by
  rw [setSteps, hreg]
  dsimp only
  rw [hmode]

theorem deferredSet_eq_none (h : Local w env txn) (hk : txn.HasKey k) :
    deferredSet w env k value = none := by
  obtain ⟨reg, hreg, hmode⟩ := h.registered k hk
  rw [deferredSet, hreg]
  dsimp only
  rw [hmode]
  rfl

theorem deferredDelete_eq_none (h : Local w env txn) (hk : txn.HasKey k) :
    deferredDelete w k = none := by
  obtain ⟨reg, hreg, hmode⟩ := h.registered k hk
  rw [deferredDelete, hreg]
  dsimp only
  rw [hmode]
  rfl

variable (order : txn.Order)

section

variable (h : Local w env txn)
include h

theorem plan_eq : plan w env t txn order =
      openStep w env ::
        (order.sets.flatMap (fun e => setSteps w env t txn e.1 e.2) ++
          order.deletes.flatMap (deleteSteps w env)) ++ [commitStep w env] := by
  have hsets : order.sets.filterMap (fun e => deferredSet w env e.1 e.2) = [] := by
    rw [List.filterMap_eq_nil_iff]
    exact fun e he => h.deferredSet_eq_none (.inl (order.mem_sets.mp (List.mem_map_of_mem he)))
  have hdeletes : order.deletes.filterMap (deferredDelete w) = [] := by
    rw [List.filterMap_eq_nil_iff]
    exact fun k hk => h.deferredDelete_eq_none (.inr (order.mem_deletes.mp hk))
  rw [plan, writePlan, hsets, hdeletes, List.flatMap_nil, List.flatMap_nil,
    List.append_nil, List.append_nil]

theorem fault_applySetSteps (p : PendingSet T) :
    ∀ step ∈ applySetSteps w env t p, step.fault = none := by
  intro step hstep
  rcases mem_applySetSteps hstep with rfl | rfl | rfl | rfl
  · exact h.cacheFault _
  · exact h.working _
  · exact h.working _
  · rfl

theorem fault_applyDeleteSteps (k : Key) :
    ∀ step ∈ applyDeleteSteps w env k, step.fault = none := by
  intro step hstep
  rcases mem_applyDeleteSteps hstep with rfl | rfl
  · exact h.cacheFault _
  · exact h.working _

theorem fault_plan : ∀ step ∈ plan w env t txn order, step.fault = none := by
  intro step hstep
  rw [h.plan_eq order] at hstep
  simp only [List.cons_append, List.mem_cons, List.mem_append,
    List.mem_flatMap, List.not_mem_nil, or_false] at hstep
  rcases hstep with rfl | (⟨e, he, hstep⟩ | ⟨k, hk, hstep⟩) | rfl
  · rw [openStep]
    split
    · exact h.working _
    · rfl
  · obtain ⟨reg, hreg, hmode⟩ := h.registered e.1
      (.inl (order.mem_sets.mp (List.mem_map_of_mem he)))
    rw [setSteps_eq hreg hmode, List.mem_cons, List.mem_cons] at hstep
    rcases hstep with rfl | rfl | hstep
    · exact h.readFault
    · exact h.swaps e.1
    · exact h.fault_applySetSteps _ step hstep
  · obtain ⟨reg, hreg, hmode⟩ := h.registered k (.inr (order.mem_deletes.mp hk))
    rw [deleteSteps_eq hreg hmode] at hstep
    exact h.fault_applyDeleteSteps k step hstep
  · rw [commitStep]
    split
    · exact h.working _
    · rfl

end

/-! ## The course of the two loops -/

/-- One round of the first loop. -/
def visitSet (w : Warp T) (env : Env) (txn : Txn T) (s : CommitState T)
    (e : Sigma fun _ : Key => T) : CommitState T :=
  effects (setSteps w env 0 txn e.1 e.2) s

/-- One round of the second loop. -/
def visitDelete (w : Warp T) (env : Env) (s : CommitState T) (k : Key) :
    CommitState T :=
  effects (deleteSteps w env k) s

/-- The state in which the loops of a commit end. -/
def finished (w : Warp T) (env : Env) : CommitState T :=
  order.deletes.foldl (visitDelete w env) (order.sets.foldl (visitSet w env txn) (started w env))

section

variable (h : Local w env txn)
include h

theorem commit_eq : commit w env txn order =
      (none, ((commitStep w env).effect (finished order w env)).warp) := by
  rw [Txn.commit_eq order w env 0, runSteps_of_no_fault (h.fault_plan order),
    h.plan_eq order, effects_append, effects_cons, effects_cons,
    effects_append, effects_flatMap, effects_flatMap]
  rfl

theorem visitSet_of_ne {e : Sigma fun _ : Key => T}
    (he : e ∈ order.sets) (hk : e.1 ≠ k) (s : CommitState T) :
    SameSlot k s (visitSet w env txn s e) := by
  obtain ⟨reg, hreg, hmode⟩ := h.registered e.1 (.inl (order.mem_sets.mp (List.mem_map_of_mem he)))
  rw [SameSlot, visitSet, setSteps_eq hreg hmode]
  exact slot_applySetSteps_of_ne hk

theorem visitDelete_of_ne {k' : Key} (hmem : k' ∈ order.deletes) (hk : k' ≠ k) (s : CommitState T) :
    SameSlot k s (visitDelete w env s k') := by
  obtain ⟨reg, hreg, hmode⟩ := h.registered k' (.inr (order.mem_deletes.mp hmem))
  rw [SameSlot, visitDelete, deleteSteps_eq hreg hmode]
  exact slot_applyDeleteSteps_of_ne hk

theorem slot_finished_of_set {reg : Registration}
    (hvalue : txn.sets.lookup k = some value) (hreg : w.regs k = some reg) :
    (finished order w env).slot k = ((started w env).slot k).set w.storeKind
        (committedEntry w env k value reg) := by
  have hmem : ⟨k, value⟩ ∈ order.sets :=
    order.sets_perm.mem_iff.mpr (AList.mem_lookup_iff.mp hvalue)
  have hset : k ∈ txn.sets := order.mem_sets.mp (List.mem_map_of_mem hmem)
  obtain ⟨reg', hreg', hmode⟩ := h.registered k (.inl hset)
  obtain rfl := Option.mem_unique hreg hreg'
  obtain ⟨s, hbefore, hafter⟩ := foldl_of_mem (R := SameSlot k)
    (f := visitSet w env txn) (fun _ => rfl) SameSlot.trans
    (fun e he hne => h.visitSet_of_ne order he hne) order.sets_nodup hmem
    (started w env)
  have hnot : k ∉ order.deletes.map id := by
    rw [List.map_id]
    exact fun hdel => txn.disjoint k hset (order.mem_deletes.mp hdel)
  have hdeletes := foldl_of_notMem (R := SameSlot k) (f := visitDelete w env)
    (fun _ => rfl) SameSlot.trans
    (fun k' hk' hne => h.visitDelete_of_ne order hk' hne) hnot
    (order.sets.foldl (visitSet w env txn) (started w env))
  have hvisit : (visitSet w env txn s ⟨k, value⟩).slot k =
      (s.slot k).set w.storeKind (committedEntry w env k value reg) := by
    rw [visitSet, setSteps_eq hreg hmode]
    exact slot_applySetSteps_self h.working (plannedSet w env k value reg)
  rw [finished, hdeletes, hafter, hvisit, hbefore]

theorem slot_finished_of_delete (hdelete : k ∈ txn.deletes) :
    (finished order w env).slot k = ((started w env).slot k).delete w.storeKind := by
  have hmem : k ∈ order.deletes := order.mem_deletes.mpr hdelete
  obtain ⟨reg, hreg, hmode⟩ := h.registered k (.inr hdelete)
  have hsets := foldl_of_notMem (R := SameSlot k) (f := visitSet w env txn)
    (fun _ => rfl) SameSlot.trans
    (fun e he hne => h.visitSet_of_ne order he hne)
    (fun hset => txn.disjoint k (order.mem_sets.mp hset) hdelete)
    (started w env)
  have hnodup : (order.deletes.map id).Nodup := by
    rw [List.map_id]
    exact order.deletes_nodup
  obtain ⟨s, hbefore, hafter⟩ := foldl_of_mem (R := SameSlot k)
    (f := visitDelete w env) (fun _ => rfl) SameSlot.trans
    (fun k' hk' hne => h.visitDelete_of_ne order hk' hne) hnodup hmem
    (order.sets.foldl (visitSet w env txn) (started w env))
  have hvisit : (visitDelete w env s k).slot k = (s.slot k).delete w.storeKind := by
    rw [visitDelete, deleteSteps_eq hreg hmode]
    exact slot_applyDeleteSteps_self h.working k
  rw [finished, hafter, hvisit, hbefore, hsets]

theorem commit_of_set {reg : Registration}
    (hvalue : txn.sets.lookup k = some value) (hreg : w.regs k = some reg) :
    (commit w env txn order).2.cache k = some (committedEntry w env k value reg) ∧
      (commit w env txn order).2.store k =
        if w.storeKind = .absent then w.store k
        else some (committedEntry w env k value reg).value.data := by
  have hslot := h.slot_finished_of_set order hvalue hreg
  rw [slot_started] at hslot
  rw [h.commit_eq order]
  constructor
  · rw [cache_commitStep]
    rw [Slot.set.eq_def] at hslot
    have hcached := congrArg Slot.cached hslot
    cases hkind : w.storeKind <;> rw [hkind] at hcached <;> exact hcached
  · rw [store_commitStep, hslot]
    cases hkind : w.storeKind <;> rfl

theorem commit_of_delete (hdelete : k ∈ txn.deletes) :
    (commit w env txn order).2.cache k = none ∧ (commit w env txn order).2.store k =
        if w.storeKind = .batcher then none else w.store k := by
  have hslot := h.slot_finished_of_delete order hdelete
  rw [slot_started] at hslot
  rw [h.commit_eq order]
  constructor
  · rw [cache_commitStep]
    exact congrArg Slot.cached hslot
  · rw [store_commitStep, hslot]
    cases hkind : w.storeKind <;> rfl

end

theorem commit_of_not_hasKey (w : Warp T) (env : Env) (hk : ¬txn.HasKey k) :
    w.SameAt k (commit w env txn order).2 :=
  (Warp.SameAt.commitStable w w env hk).commit (Warp.SameAt.refl k w) order

end Txn.Local

theorem committedEntry_eq {w : Warp T} {env : Env} {k : Key}
    (hworking : ∀ c, env.fails c = none) (value : T) (reg : Registration) :
    committedEntry w env k value reg = Cache.newEntry (env.clock (.call (.cacheSet k)))
        (w.newValue env k value (w.cache.get (env.clock (.call (.cacheGet k))) k))
        (env.effectiveTTL k reg) := by
  rw [committedEntry, plannedSet, readValue, Warp.cacheGet, hworking]
  rfl

/-! ## The queueing calls -/

inductive QueueCall (T : Type) where
  | set (k : Key) (value : T)
  | delete (k : Key)

namespace QueueCall

def key : QueueCall T → Key
  | .set k _ => k
  | .delete k => k

def last (calls : List (QueueCall T)) (k : Key) : Option (QueueCall T) :=
  calls.reverse.find? fun call => decide (call.key = k)

theorem last_concat_self (calls : List (QueueCall T)) (call : QueueCall T) :
    last (calls ++ [call]) call.key = some call := by
  simp [last]

theorem last_concat_of_ne (calls : List (QueueCall T)) {call : QueueCall T}
    {k : Key} (hk : call.key ≠ k) :
    last (calls ++ [call]) k = last calls k := by
  simp [last, hk]

theorem mem_of_last {calls : List (QueueCall T)} {k : Key}
    {call : QueueCall T} (h : last calls k = some call) :
    call ∈ calls ∧ call.key = k := by
  have hkey := List.find?_some h
  exact ⟨List.mem_reverse.mp (List.mem_of_find?_eq_some h), of_decide_eq_true hkey⟩

end QueueCall

namespace Txn

def queue (txn : Txn T) : QueueCall T → Txn T
  | .set k value => txn.set k value
  | .delete k => txn.delete k

def queued (calls : List (QueueCall T)) : Txn T := calls.foldl queue empty

/-- What is queued for `k` is the given call. -/
def Queues (txn : Txn T) (k : Key) : Option (QueueCall T) → Prop
  | none => k ∉ txn.sets ∧ k ∉ txn.deletes
  | some (.set _ value) => txn.sets.lookup k = some value ∧ k ∉ txn.deletes
  | some (.delete _) => k ∉ txn.sets ∧ k ∈ txn.deletes

theorem queues_queue_self (txn : Txn T) (call : QueueCall T) :
    (txn.queue call).Queues call.key (some call) := by
  cases call with
  | set k value =>
    refine ⟨AList.lookup_insert _, ?_⟩
    exact fun h => (AList.mem_erase.mp h).1 rfl
  | delete k =>
    refine ⟨fun h => (AList.mem_erase.mp h).1 rfl, ?_⟩
    exact (AList.mem_insert _).mpr (.inl rfl)

theorem Queues.queue_of_ne {txn : Txn T} {k : Key} {last : Option (QueueCall T)}
    (h : txn.Queues k last) {call : QueueCall T} (hk : call.key ≠ k) :
    (txn.queue call).Queues k last := by
  have hk' : k ≠ call.key := .symm hk
  rcases call with ⟨k', value⟩ | k' <;>
    change k ≠ k' at hk' <;>
    rcases last with _ | ⟨_, value'⟩ | _ <;>
    simpa [Queues, queue, Txn.set, Txn.delete, AList.mem_erase,
      AList.mem_insert, AList.lookup_insert_ne, AList.lookup_erase_ne, hk']
      using h

theorem queues_queued (calls : List (QueueCall T)) (k : Key) :
    (queued calls).Queues k (QueueCall.last calls k) := by
  induction calls using List.reverseRecOn with
  | nil => exact ⟨AList.notMem_empty k, AList.notMem_empty k⟩
  | append_singleton calls call ih =>
    rw [queued, List.foldl_append]
    by_cases hk : call.key = k
    · subst hk
      rw [QueueCall.last_concat_self]
      exact queues_queue_self _ call
    · rw [QueueCall.last_concat_of_ne calls hk]
      exact .queue_of_ne ih hk

theorem cas_queued (calls : List (QueueCall T)) (k : Key) : (queued calls).cas.lookup k = none := by
  induction calls using List.reverseRecOn with
  | nil => rfl
  | append_singleton calls call ih =>
    rw [queued, List.foldl_append]
    change ((queued calls).queue call).cas.lookup k = none
    cases call with
    | set k' value | delete k' =>
      by_cases hk : k = k'
      · rw [hk]
        exact AList.lookup_erase k' _
      · exact (AList.lookup_erase_ne hk).trans ih

theorem exists_call_of_hasKey {calls : List (QueueCall T)} {k : Key}
    (hk : (queued calls).HasKey k) : ∃ call ∈ calls, call.key = k := by
  have hqueues := queues_queued calls k
  cases hlast : QueueCall.last calls k with
  | none =>
    rw [hlast] at hqueues
    exact absurd hk (not_or.mpr hqueues)
  | some call => exact ⟨call, QueueCall.mem_of_last hlast⟩

/-! ## The result of a commit -/

/-- The value that the set of a key stores: the new one merged over the cached
one. -/
def mergedValue (w : Warp T) (env : Env) (k : Key) (value : T) : Value T :=
  w.newValue env k value (w.cache.get (env.clock (.call (.cacheGet k))) k)

/-- The cache after the last call for each key has been carried out. -/
def committedCache (w : Warp T) (env : Env) (calls : List (QueueCall T)) :
    Cache T := fun k =>
  match QueueCall.last calls k with
  | none => w.cache k
  | some (.set _ value) => (w.regs k).map fun reg =>
    Cache.newEntry (env.clock (.call (.cacheSet k)))
      (mergedValue w env k value) (env.effectiveTTL k reg)
  | some (.delete _) => none

/-- The store after the last call for each key has been carried out. -/
def committedStore (w : Warp T) (env : Env) (calls : List (QueueCall T)) :
    Key → Option T := fun k =>
  match QueueCall.last calls k with
  | none => w.store k
  | some (.set _ value) => some (mergedValue w env k value).data
  | some (.delete _) => none

section Queued

variable [DecidableEq T] {w : Warp T} {env : Env} {calls : List (QueueCall T)}

theorem local_queued (hworking : ∀ c, env.fails c = none) (hregistered : ∀ call ∈ calls,
      ∃ reg, w.regs call.key = some reg ∧ reg.mode = .strongLocal) :
    Local w env (queued calls) where
  working := hworking
  registered k hk := by
    obtain ⟨call, hcall, rfl⟩ := exists_call_of_hasKey hk
    exact hregistered call hcall
  swaps k := by
    unfold casFault
    rw [cas_queued]

theorem commit_queued_at (h : Local w env (queued calls))
    (hkind : w.storeKind = .batcher) (order : (queued calls).Order) (k : Key) :
    (commit w env (queued calls) order).2.cache k = committedCache w env calls k ∧
      (commit w env (queued calls) order).2.store k =
        committedStore w env calls k := by
  have hqueues := queues_queued calls k
  rw [committedCache, committedStore]
  rcases hlast : QueueCall.last calls k with _ | ⟨k', value⟩ | k' <;>
    rw [hlast] at hqueues
  · have hsame := Local.commit_of_not_hasKey order w env (not_or.mpr hqueues)
    exact ⟨hsame.cache, hsame.store⟩
  · have hset : k ∈ (queued calls).sets := by
      rw [← AList.lookup_isSome, hqueues.1]
      rfl
    obtain ⟨reg, hreg, _⟩ := h.registered k (.inl hset)
    have hresult := h.commit_of_set order hqueues.1 hreg
    rw [committedEntry_eq h.working, hkind] at hresult
    dsimp only
    rw [hreg]
    exact hresult
  · have hresult := h.commit_of_delete order hqueues.2
    rw [hkind] at hresult
    exact hresult

end Queued

/-- For every sequence of queueing calls, no key is both set and deleted, the
last call for a key is what is queued for it, and in whatever order the maps
are iterated, `Commit` succeeds and leaves for every key what its last call
asks for. -/
theorem commit_queued [DecidableEq T] (w : Warp T) (env : Env)
    (calls : List (QueueCall T)) (hkind : w.storeKind = .batcher)
    (hworking : ∀ c, env.fails c = none)
    (hregistered : ∀ call ∈ calls, ∃ reg, w.regs call.key = some reg ∧ reg.mode = .strongLocal) :
    (∀ k ∈ (queued calls).sets, k ∉ (queued calls).deletes) ∧
      (∀ k, (queued calls).Queues k (QueueCall.last calls k)) ∧
      ∀ order : (queued calls).Order, (commit w env (queued calls) order).1 = none ∧
          (commit w env (queued calls) order).2.cache = committedCache w env calls ∧
          (commit w env (queued calls) order).2.store =
            committedStore w env calls := by
  have hlocal := local_queued hworking hregistered
  refine ⟨(queued calls).disjoint, queues_queued calls, fun order => ?_⟩
  refine ⟨?_, ?_, ?_⟩
  · rw [hlocal.commit_eq order]
  · exact funext fun k => (commit_queued_at hlocal hkind order k).1
  · exact funext fun k => (commit_queued_at hlocal hkind order k).2

/-- A Warp over a store with batches, all of whose keys are in
`ModeStrongLocal` and add to what is there. -/
def counterWarp : Warp ℕ :=
  { Warp.uniform (Registration.new .strongLocal 60 TTLOptions.zero) with
    store := fun _ => some 10
    storeKind := .batcher
    merges := fun _ => some fun old new => some (old + new) }

/-- Calls that change their mind about both keys. -/
def counterCalls : List (QueueCall ℕ) :=
  [.set "a" 1, .delete "b", .delete "a", .set "b" 2, .set "a" 3, .delete "b"]

/-- An iteration order of the queued maps. -/
def queuedOrder : (queued counterCalls).Order where
  sets := (queued counterCalls).sets.entries
  deletes := (queued counterCalls).deletes.keys
  sets_perm := List.Perm.refl _
  deletes_perm := List.Perm.refl _

theorem commit_counterCalls : (commit counterWarp Warp.workingEnv (queued counterCalls)
        queuedOrder).2.store =
      committedStore counterWarp Warp.workingEnv counterCalls :=
  ((commit_queued counterWarp Warp.workingEnv counterCalls rfl (fun _ => rfl)
    fun _ _ => ⟨_, rfl, rfl⟩).2.2 queuedOrder).2.2

/-! ## A transaction of one set -/

/-- The cached and the stored data of `k` are the same. -/
def SameData (k : Key) (w w' : Warp T) : Prop :=
  (∀ t, (w.cache.get t k).map Value.data = (w'.cache.get t k).map Value.data) ∧
    w.store k = w'.store k

theorem map_data_live_iff (cachedAt : Instant) (v v' : Value T) (ttl : Duration) :
    (∀ t, ((Cache.newEntry cachedAt v ttl).live t).map Value.data =
        ((Cache.newEntry cachedAt v' ttl).live t).map Value.data) ↔
      v.data = v'.data := by
  constructor
  · intro h
    have hnow := h cachedAt
    rw [Cache.live_newEntry, Cache.live_newEntry] at hnow
    exact Option.some.inj hnow
  · intro hdata t
    rw [Cache.newEntry, Cache.newEntry, CacheEntry.live, CacheEntry.live]
    dsimp only
    split
    · exact congrArg some hdata
    · split
      · rfl
      · exact congrArg some hdata

theorem sameData_iff {w w' : Warp T} {k : Key} {cachedAt : Instant}
    {v v' : Value T} {ttl : Duration} {c : Prop} [Decidable c] {old : Option T}
    (hcache : w.cache k = some (Cache.newEntry cachedAt v ttl))
    (hcache' : w'.cache k = some (Cache.newEntry cachedAt v' ttl))
    (hstore : w.store k = if c then old else some v.data)
    (hstore' : w'.store k = if c then old else some v'.data) :
    SameData k w w' ↔ v.data = v'.data := by
  have hget : ∀ t, w.cache.get t k = (Cache.newEntry cachedAt v ttl).live t :=
    fun t => by rw [Cache.get, hcache]; rfl
  have hget' : ∀ t, w'.cache.get t k = (Cache.newEntry cachedAt v' ttl).live t :=
    fun t => by rw [Cache.get, hcache']; rfl
  rw [SameData, hstore, hstore', ← map_data_live_iff cachedAt v v' ttl]
  simp only [hget, hget']
  refine and_iff_left_of_imp fun h => ?_
  rw [(map_data_live_iff cachedAt v v' ttl).mp h]

theorem data_newValue_stored {w : Warp T} {env : Env} {k : Key}
    {fn : MergeFn T} (hfn : w.merges k = some fn) (stored value : T) (now : Instant) :
    (w.newValue env k value (some (Value.written stored now))).data =
      (fn stored value).getD value := by
  rw [Warp.newValue, Engine.mergeOver, Engine.merge, hfn]
  dsimp only [Value.written]
  cases fn stored value <;> rfl

theorem data_newValue_baseAt_iff (w : Warp T) (env : Env) (k : Key) (value : T) (now : Instant) :
    (w.newValue env k value (w.cache.get now k)).data =
        (w.newValue env k value (w.baseAt now k)).data ↔
      ∀ fn stored, w.cache.get now k = none → w.storeKind ≠ .absent →
        w.merges k = some fn → w.store k = some stored →
        (fn stored value).getD value = value := by
  rw [Warp.baseAt]
  rcases w.cache.get now k with _ | old
  · have hnew : (w.newValue env k value none).data = value := rfl
    dsimp only
    by_cases hturns : w.storeKind ≠ .absent ∧ w.merges.hasCustom k
    · obtain ⟨fn, hfn⟩ := Option.isSome_iff_exists.mp hturns.2
      rw [if_pos hturns, hfn]
      cases hstored : w.store k with
      | none =>
        exact ⟨fun _ _ _ _ _ _ h => absurd h.symm (Option.some_ne_none _), fun _ => rfl⟩
      | some stored =>
        rw [Option.map_some, data_newValue_stored hfn, hnew]
        constructor
        · rintro h fn' stored' - - hfn' hstored'
          cases hfn'
          cases hstored'
          exact h.symm
        · exact fun h => (h fn stored rfl hturns.1 rfl rfl).symm
    · rw [if_neg hturns]
      refine ⟨fun _ fn stored _ hkind hfn _ => ?_, fun _ => rfl⟩
      refine absurd ⟨hkind, ?_⟩ hturns
      rw [Engine.hasCustom, hfn]
      rfl
  · exact ⟨fun _ _ _ h => absurd h (Option.some_ne_none old), fun _ => rfl⟩

/-- A transaction with one set leaves the cached and the stored data of its
key as `Set` does exactly when a stored value that is not cached and that the
key's own merge function would be applied to does not make a difference. -/
theorem commit_set_sameData_iff [DecidableEq T] (w : Warp T) (env : Env)
    (k : Key) (value : T) (reg : Registration) (hreg : w.regs k = some reg)
    (hmode : reg.mode = .strongLocal) (hworking : ∀ c, env.fails c = none)
    (order : (empty.set k value).Order) :
    SameData k (commit w env (empty.set k value) order).2 (exec (Warp.set env k value) w).2 ↔
      ∀ fn stored, w.cache.get (env.clock (.call (.cacheGet k))) k = none →
        w.storeKind ≠ .absent → w.merges k = some fn →
        w.store k = some stored → (fn stored value).getD value = value := by
  have hqueued : Local w env (queued [.set k value]) :=
    local_queued hworking (by simpa using ⟨reg, hreg, hmode⟩)
  have hlocal : Local w env (empty.set k value) := hqueued
  obtain ⟨hcache, hstore⟩ := hlocal.commit_of_set order (AList.lookup_insert _) hreg
  rw [committedEntry_eq hworking] at hcache hstore
  rw [Warp.exec_set_of_working hreg hmode hworking,
    sameData_iff hcache (Warp.cache_wrote _) hstore (Warp.store_wrote _)]
  exact data_newValue_baseAt_iff w env k value _

def counterOrder : (empty.set "a" 5 : Txn ℕ).Order where
  sets := [⟨"a", 5⟩]
  deletes := []
  sets_perm := by decide
  deletes_perm := by decide

/-- Adding 5 to a stored 10 that is not cached: `Set` leaves 15 and a
transaction leaves 5. -/
theorem commit_set_differs_counterWarp : (commit counterWarp Warp.workingEnv (empty.set "a" 5)
        counterOrder).2.store "a" = some 5 ∧
      (exec (Warp.set Warp.workingEnv "a" 5) counterWarp).2.store "a" =
        some 15 := by
  decide

/-- Once the 10 is cached, both leave 15. -/
theorem commit_set_sameData_cached : SameData "a" (commit { counterWarp with
        cache := fun _ => some ⟨.written 10 0, none⟩ }
        Warp.workingEnv (empty.set "a" 5) counterOrder).2
      (exec (Warp.set Warp.workingEnv "a" 5) { counterWarp with
        cache := fun _ => some ⟨.written 10 0, none⟩ }).2 :=
  (commit_set_sameData_iff _ Warp.workingEnv "a" 5
    (.new .strongLocal 60 TTLOptions.zero) rfl rfl (fun _ => rfl)
    counterOrder).mpr fun _ _ hmiss => nomatch hmiss

end Txn

end GoWarp.Core
