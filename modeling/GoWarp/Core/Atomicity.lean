import GoWarp.Core.CommitPlan

/-!
# When a failed commit leaves no trace

`Commit` stops at its first failing step and rolls nothing back.  Its steps
write pairwise distinct cells, so that an error leaves all values as they were
exactly when the first failing step precedes every step that changes a value.
-/

namespace GoWarp.Core

open Support Support.Program Support.Step
open Function (update update_of_ne update_self)

variable {T : Type} {w : Warp T} {env : Env} {t : Instant} {k : Key}

theorem Warp.view_cacheSet (h : env.fails (.cacheSet k) = none) (v : Value T) (ttl : Duration) :
    (w.cacheSet env k v ttl).view t = update (w.view t) (.cached k) (.cached
        ((Cache.newEntry (env.clock (.call (.cacheSet k))) v ttl).live t)) := by
  funext c
  rw [Warp.cacheSet, h]
  by_cases hc : c = .cached k
  · subst hc
    rw [update_self, Warp.view, Cache.get_set_self]
  · rw [update_of_ne hc]
    rcases c with k' | k'
    · have hne : k' ≠ k := fun heq => hc (heq ▸ rfl)
      rw [Warp.view, Warp.view, Cache.get_set_of_ne _ _ _ hne]
    · rfl

theorem Warp.view_cacheInvalidate (h : env.fails (.cacheInvalidate k) = none) :
    (w.cacheInvalidate env k).view t = update (w.view t) (.cached k) (.cached none) := by
  funext c
  rw [Warp.cacheInvalidate, h]
  by_cases hc : c = .cached k
  · subst hc
    rw [update_self, Warp.view, Cache.get_invalidate_self]
  · rw [update_of_ne hc]
    rcases c with k' | k'
    · have hne : k' ≠ k := fun heq => hc (heq ▸ rfl)
      rw [Warp.view, Warp.view, Cache.get_invalidate_of_ne _ _ hne]
    · rfl

theorem Warp.view_storeSet (k : Key) (data : T) : (w.storeSet k data).view t =
      update (w.view t) (.stored k) (.stored (some data)) := by
  funext c
  by_cases hc : c = .stored k
  · subst hc
    simp [Warp.view, Warp.storeSet]
  · rw [update_of_ne hc]
    rcases c with k' | k'
    · rfl
    · have hne : k' ≠ k := fun heq => hc (heq ▸ rfl)
      simp [Warp.view, Warp.storeSet, update_of_ne hne]

theorem sound_cacheSetStep (p : PendingSet T) :
    (cacheSetStep w env t p).Sound (CommitState.view t) := by
  intro s
  simp only [cacheSetStep, CommitState.view, CommitState.onWarp]
  cases h : env.fails (.cacheSet p.key) with
  | none => exact Warp.view_cacheSet h _ _
  | some e => rw [Warp.cacheSet, h]

theorem sound_cacheInvalidateStep (k : Key) :
    (cacheInvalidateStep w env k).Sound (CommitState.view t) := by
  intro s
  simp only [cacheInvalidateStep, CommitState.view, CommitState.onWarp]
  cases h : env.fails (.cacheInvalidate k) with
  | none => exact Warp.view_cacheInvalidate h
  | some e => rw [Warp.cacheInvalidate, h]

theorem sound_applySetSteps (p : PendingSet T) :
    ∀ step ∈ applySetSteps w env t p, step.Sound (CommitState.view t) := by
  intro step hmem
  rcases mem_applySetSteps hmem with rfl | rfl | rfl | rfl
  · exact sound_cacheSetStep p
  · exact fun s => rfl
  · exact fun s => Warp.view_storeSet _ _
  · exact fun s => rfl

theorem sound_applyDeleteSteps (k : Key) :
    ∀ step ∈ applyDeleteSteps w env k, step.Sound (CommitState.view t) := by
  intro step hmem
  rcases mem_applyDeleteSteps hmem with rfl | rfl
  · exact sound_cacheInvalidateStep k
  · exact fun s => rfl

theorem sound_setSteps [DecidableEq T] (txn : Txn T) (k : Key) (value : T) :
    ∀ step ∈ setSteps w env t txn k value, step.Sound (CommitState.view t) := by
  intro step hmem
  rcases mem_setSteps hmem with ⟨fault, rfl⟩ | ⟨reg, _, _, happly⟩
  · exact sound_check _ fault
  · exact sound_applySetSteps _ step happly

theorem sound_deleteSteps (k : Key) :
    ∀ step ∈ deleteSteps w env k, step.Sound (CommitState.view t) := by
  intro step hmem
  rcases mem_deleteSteps hmem with ⟨fault, rfl⟩ | ⟨reg, _, _, happly⟩
  · exact sound_check _ fault
  · exact sound_applyDeleteSteps _ step happly

theorem Txn.sound_writePlan [DecidableEq T] (w : Warp T) (env : Env)
    (t : Instant) (txn : Txn T) (order : txn.Order) :
    ∀ step ∈ writePlan w env t txn order, step.Sound (CommitState.view t) := by
  intro step hmem
  simp only [writePlan, List.mem_cons, List.mem_append, List.mem_flatMap] at hmem
  rcases hmem with rfl | ⟨e, _, h⟩ | ⟨k, _, h⟩ | ⟨p, _, h⟩ | ⟨k, _, h⟩
  · intro s
    rw [openStep]
    split <;> rfl
  · exact sound_setSteps txn e.1 e.2 step h
  · exact sound_deleteSteps k step h
  · exact sound_applySetSteps p step h
  · exact sound_applyDeleteSteps k step h

/-! ## No cell is written twice -/

/-- The key is registered in `ModeStrongDistributed`; `Commit` applies such keys
after its two loops. -/
def Strong (w : Warp T) (k : Key) : Prop :=
  ∃ reg, w.regs k = some reg ∧ reg.mode = .strongDistributed

theorem not_strong {reg : Registration}
    (hreg : w.regs k = some reg) (hmode : reg.mode ≠ .strongDistributed) :
    ¬ Strong w k := by
  rintro ⟨reg', hreg', hmode'⟩
  rw [hreg, Option.some.injEq] at hreg'
  exact hmode (hreg' ▸ hmode')

theorem nodup_cells_applySetSteps (p : PendingSet T) : (cells (applySetSteps w env t p)).Nodup := by
  cases hkind : w.storeKind <;> cases hfail : env.fails (.cacheSet p.key) <;>
    simp [applySetSteps, cells, cacheSetStep, batchSetStep, storeSetStep, touchStep, hkind, hfail]

theorem nodup_cells_applyDeleteSteps (k : Key) : (cells (applyDeleteSteps w env k)).Nodup := by
  by_cases hkind : w.storeKind = .batcher <;>
    cases hfail : env.fails (.cacheInvalidate k) <;>
    simp [applyDeleteSteps, cells, cacheInvalidateStep, batchDeleteStep, hkind, hfail]

theorem key_of_mem_applySetSteps {p : PendingSet T} {c : Cell}
    (hc : c ∈ cells (applySetSteps w env t p)) : c.key = p.key := by
  obtain ⟨step, hmem, hwrite⟩ := List.mem_filterMap.mp hc
  rcases mem_applySetSteps hmem with rfl | rfl | rfl | rfl
  · cases hfail : env.fails (.cacheSet p.key) <;>
      simp [cacheSetStep, hfail] at hwrite
    exact hwrite ▸ rfl
  · cases hwrite
  · cases hwrite
    rfl
  · cases hwrite

theorem key_of_mem_applyDeleteSteps {c : Cell}
    (hc : c ∈ cells (applyDeleteSteps (T := T) w env k)) : c.key = k := by
  obtain ⟨step, hmem, hwrite⟩ := List.mem_filterMap.mp hc
  rcases mem_applyDeleteSteps hmem with rfl | rfl
  · cases hfail : env.fails (.cacheInvalidate k) <;>
      simp [cacheInvalidateStep, hfail] at hwrite
    exact hwrite ▸ rfl
  · cases hwrite

theorem cells_setSteps [DecidableEq T] (txn : Txn T) (k : Key) (value : T) :
    cells (setSteps w env t txn k value) = [] ∨ ∃ p : PendingSet T, p.key = k ∧ ¬ Strong w k ∧
        cells (setSteps w env t txn k value) = cells (applySetSteps w env t p) := by
  rw [setSteps]
  split
  next => exact .inl rfl
  next reg hreg =>
    split
    next hmode =>
      exact .inr ⟨plannedSet w env k value reg, rfl, not_strong hreg (by simp [hmode]), by simp⟩
    next => exact .inl rfl
    next hmode =>
      exact .inr ⟨plannedSet w env k value reg, rfl, not_strong hreg (by simp [hmode]), by simp⟩

theorem cells_deleteSteps (k : Key) : cells (deleteSteps (T := T) w env k) = [] ∨ ¬ Strong w k ∧
        cells (deleteSteps w env k) = cells (applyDeleteSteps w env k) := by
  rw [deleteSteps]
  split
  next => exact .inl rfl
  next reg hreg =>
    split
    next hmode => exact .inr ⟨not_strong hreg (by simp [hmode]), by simp⟩
    next => exact .inl rfl
    next hmode => exact .inr ⟨not_strong hreg (by simp [hmode]), rfl⟩

theorem deferredSet_eq_some {value : T} {p : PendingSet T}
    (h : deferredSet w env k value = some p) : p.key = k ∧ Strong w k := by
  rw [deferredSet] at h
  split at h
  next => cases h
  next reg hreg =>
    split at h
    next hmode =>
      cases h
      exact ⟨rfl, reg, hreg, hmode⟩
    next => cases h

theorem deferredDelete_eq_some {k k' : Key}
    (h : deferredDelete w k = some k') : k' = k ∧ Strong w k := by
  rw [deferredDelete] at h
  split at h
  next => cases h
  next reg hreg =>
    split at h
    next hmode =>
      cases h
      exact ⟨rfl, reg, hreg, hmode⟩
    next => cases h

theorem map_filterMap_sublist {α β κ : Type} {d : α → Option β}
    {keyA : α → κ} {keyB : β → κ} (h : ∀ a b, d a = some b → keyB b = keyA a)
    (l : List α) : ((l.filterMap d).map keyB).Sublist (l.map keyA) := by
  induction l with
  | nil => exact .slnil
  | cons a rest ih =>
    cases hda : d a with
    | none =>
      rw [List.filterMap_cons_none hda]
      exact ih.cons _
    | some b =>
      rw [List.filterMap_cons_some hda, List.map_cons, List.map_cons, h a b hda]
      exact ih.cons_cons _

namespace Txn

variable {txn : Txn T} (order : txn.Order) {c : Cell}

theorem key_of_mem_setLoop [DecidableEq T] (hc : c ∈ cells (order.sets.flatMap
      fun e => setSteps w env t txn e.1 e.2)) :
    c.key ∈ order.sets.map Sigma.fst ∧ ¬ Strong w c.key := by
  rw [cells_flatMap] at hc
  obtain ⟨e, he, hc⟩ := List.mem_flatMap.mp hc
  rcases cells_setSteps txn e.1 e.2 with h | ⟨p, hp, hstrong, h⟩
  · rw [h] at hc
    cases hc
  · rw [h] at hc
    rw [key_of_mem_applySetSteps hc, hp]
    exact ⟨List.mem_map_of_mem he, hstrong⟩

theorem key_of_mem_deleteLoop (hc : c ∈ cells (order.deletes.flatMap (deleteSteps w env))) :
    c.key ∈ order.deletes ∧ ¬ Strong w c.key := by
  rw [cells_flatMap] at hc
  obtain ⟨k, hk, hc⟩ := List.mem_flatMap.mp hc
  rcases cells_deleteSteps k with h | ⟨hstrong, h⟩
  · rw [h] at hc
    cases hc
  · rw [h] at hc
    rw [key_of_mem_applyDeleteSteps hc]
    exact ⟨hk, hstrong⟩

theorem key_of_mem_strongSets (hc : c ∈ cells ((order.sets.filterMap
      fun e => deferredSet w env e.1 e.2).flatMap (applySetSteps w env t))) :
    c.key ∈ order.sets.map Sigma.fst ∧ Strong w c.key := by
  rw [cells_flatMap] at hc
  obtain ⟨p, hp, hc⟩ := List.mem_flatMap.mp hc
  obtain ⟨e, he, hd⟩ := List.mem_filterMap.mp hp
  obtain ⟨hkey, hstrong⟩ := deferredSet_eq_some hd
  rw [key_of_mem_applySetSteps hc, hkey]
  exact ⟨List.mem_map_of_mem he, hstrong⟩

theorem key_of_mem_strongDeletes
    (hc : c ∈ cells ((order.deletes.filterMap (deferredDelete w)).flatMap
      (applyDeleteSteps w env))) :
    c.key ∈ order.deletes ∧ Strong w c.key := by
  rw [cells_flatMap] at hc
  obtain ⟨k', hk', hc⟩ := List.mem_flatMap.mp hc
  obtain ⟨k, hk, hd⟩ := List.mem_filterMap.mp hk'
  obtain ⟨rfl, hstrong⟩ := deferredDelete_eq_some hd
  rw [key_of_mem_applyDeleteSteps hc]
  exact ⟨hk, hstrong⟩

theorem cells_writePlan [DecidableEq T] : cells (writePlan w env t txn order) =
      cells (order.sets.flatMap fun e => setSteps w env t txn e.1 e.2) ++
        (cells (order.deletes.flatMap (deleteSteps w env)) ++ (cells ((order.sets.filterMap
              fun e => deferredSet w env e.1 e.2).flatMap (applySetSteps w env t)) ++
            cells ((order.deletes.filterMap (deferredDelete w)).flatMap
              (applyDeleteSteps w env)))) := by
  simp only [← cells_append]
  rw [writePlan, openStep]
  split <;> rfl

theorem nodup_cells_setLoop [DecidableEq T] : (cells (order.sets.flatMap
      fun e => setSteps w env t txn e.1 e.2)).Nodup := by
  apply nodup_cells_flatMap Sigma.fst Cell.key order.sets_nodup
  · intro e _
    rcases cells_setSteps txn e.1 e.2 with h | ⟨p, _, _, h⟩ <;> rw [h]
    · exact List.nodup_nil
    · exact nodup_cells_applySetSteps p
  · intro e _ c hc
    rcases cells_setSteps txn e.1 e.2 with h | ⟨p, hp, _, h⟩ <;> rw [h] at hc
    · cases hc
    · rw [key_of_mem_applySetSteps hc, hp]

theorem nodup_cells_deleteLoop : (cells (order.deletes.flatMap (deleteSteps w env))).Nodup := by
  apply nodup_cells_flatMap id Cell.key
  · simpa using order.deletes_nodup
  · intro k _
    rcases cells_deleteSteps k with h | ⟨_, h⟩ <;> rw [h]
    · exact List.nodup_nil
    · exact nodup_cells_applyDeleteSteps k
  · intro k _ c hc
    rcases cells_deleteSteps k with h | ⟨_, h⟩ <;> rw [h] at hc
    · cases hc
    · exact key_of_mem_applyDeleteSteps hc

theorem nodup_cells_strongSets : (cells ((order.sets.filterMap
      fun e => deferredSet w env e.1 e.2).flatMap (applySetSteps w env t))).Nodup := by
  apply nodup_cells_flatMap PendingSet.key Cell.key
  · exact order.sets_nodup.sublist
      (map_filterMap_sublist (fun _ _ h => (deferredSet_eq_some h).1) _)
  · exact fun p _ => nodup_cells_applySetSteps p
  · exact fun p _ c hc => key_of_mem_applySetSteps hc

theorem nodup_cells_strongDeletes : (cells ((order.deletes.filterMap (deferredDelete w)).flatMap
      (applyDeleteSteps w env))).Nodup := by
  apply nodup_cells_flatMap id Cell.key
  · exact (List.map_id order.deletes ▸ order.deletes_nodup).sublist
      (map_filterMap_sublist (fun _ _ h => (deferredDelete_eq_some h).1) _)
  · exact fun k _ => nodup_cells_applyDeleteSteps k
  · exact fun k _ c hc => key_of_mem_applyDeleteSteps hc

theorem nodup_cells_writePlan [DecidableEq T] : (cells (writePlan w env t txn order)).Nodup := by
  rw [cells_writePlan]
  refine (nodup_cells_setLoop order).append ((nodup_cells_deleteLoop order).append
      ((nodup_cells_strongSets order).append (nodup_cells_strongDeletes order) ?_) ?_) ?_
  · intro c h₁ h₂
    exact order.disjoint (key_of_mem_strongSets order h₁).1 (key_of_mem_strongDeletes order h₂).1
  · intro c h₁ h₂
    obtain ⟨hmem, hnot⟩ := key_of_mem_deleteLoop order h₁
    rcases List.mem_append.mp h₂ with h₂ | h₂
    · exact order.disjoint (key_of_mem_strongSets order h₂).1 hmem
    · exact hnot (key_of_mem_strongDeletes order h₂).2
  · intro c h₁ h₂
    obtain ⟨hmem, hnot⟩ := key_of_mem_setLoop order h₁
    rcases List.mem_append.mp h₂ with h₂ | h₂
    · exact order.disjoint hmem (key_of_mem_deleteLoop order h₂).1
    · rcases List.mem_append.mp h₂ with h₂ | h₂
      · exact hnot (key_of_mem_strongSets order h₂).2
      · exact order.disjoint hmem (key_of_mem_strongDeletes order h₂).1

theorem hasKey_of_mem_writePlan [DecidableEq T]
    (hc : c ∈ cells (writePlan w env t txn order)) : txn.HasKey c.key := by
  rw [cells_writePlan] at hc
  simp only [List.mem_append] at hc
  rcases hc with hc | hc | hc | hc
  · exact .inl (order.mem_sets.mp (key_of_mem_setLoop order hc).1)
  · exact .inr (order.mem_deletes.mp (key_of_mem_deleteLoop order hc).1)
  · exact .inl (order.mem_sets.mp (key_of_mem_strongSets order hc).1)
  · exact .inr (order.mem_deletes.mp (key_of_mem_strongDeletes order hc).1)

/-! ## The theorem -/

/-- The values of all keys of a transaction, as seen at the instant `t`, are
the same in two states. -/
def SameValues (txn : Txn T) (t : Instant) (w w' : Warp T) : Prop :=
  ∀ k, txn.HasKey k → w'.cache.get t k = w.cache.get t k ∧ w'.store k = w.store k

theorem sameValues_iff_view {w' : Warp T}
    (hother : ∀ c : Cell, ¬ txn.HasKey c.key → w'.view t c = w.view t c) :
    SameValues txn t w w' ↔ w'.view t = w.view t := by
  constructor
  · intro h
    funext c
    by_cases hkey : txn.HasKey c.key
    · rcases c with k | k
      · exact congrArg Content.cached (h k hkey).1
      · exact congrArg Content.stored (h k hkey).2
    · exact hother c hkey
  · intro h k _
    exact ⟨Content.cached.inj (congrFun h (.cached k)), Content.stored.inj (congrFun h (.stored k))⟩

/-- A failed commit leaves the cached and stored values of its keys as they
were exactly when no step fails, or the first step that fails comes before
every step that would change a value. -/
theorem commit_sameValues_iff_faultFirst [DecidableEq T] (w : Warp T)
    (env : Env) (txn : Txn T) (order : txn.Order) (t : Instant) :
    ((commit w env txn order).1 ≠ none → SameValues txn t w (commit w env txn order).2) ↔
      FaultFirst (w.view t) (plan w env t txn order) := by
  have hkeeps := runSteps_keeps_iff (CommitState.view t) (commitStep w env)
    (sound_writePlan w env t txn order)
    (nodup_cells_writePlan order) ⟨w, none⟩
  rw [← plan] at hkeeps
  rw [commit_eq order w env t]
  refine .trans (imp_congr_right fun herr => ?_) hkeeps
  apply sameValues_iff_view
  intro c hkey
  have hrun := runSteps_last_of_error (writePlan w env t txn order)
    (commitStep w env) ⟨w, none⟩ herr
  rw [plan, hrun]
  exact runSteps_view_of_notMem (CommitState.view t) (sound_writePlan w env t txn order)
    (fun hc => hkey (hasKey_of_mem_writePlan order hc)) ⟨w, none⟩

/-- A Warp with one key in `ModeStrongLocal` and nothing cached or stored. -/
def sampleWarp : Warp ℕ where
  cache := fun _ => none
  store := fun _ => none
  storeKind := .plain
  hasBus := false
  merges := fun _ => none
  regs := fun k =>
    if k = "a" then some (Registration.new .strongLocal 0 TTLOptions.zero)
    else none
  resilient := false
  traceEnabled := false
  hasLatencyHist := false
  spawned := []

def calmEnv : Env := .still 0

/-- A transaction over a registered and an unregistered key. -/
def sampleTxn : Txn ℕ := (empty.set "a" 1).set "b" 2

/-- The registered key first. -/
def sampleOrder : sampleTxn.Order where
  sets := [⟨"a", 1⟩, ⟨"b", 2⟩]
  deletes := []
  sets_perm := by decide
  deletes_perm := by decide

/-- `Commit` fails at the unregistered key and leaves the other one written. -/
theorem commit_sampleTxn_leaves_write :
    (commit sampleWarp calmEnv sampleTxn sampleOrder).1 = some .unregistered ∧
      sampleTxn.HasKey "a" ∧
      ¬ SameValues sampleTxn 0 sampleWarp (commit sampleWarp calmEnv sampleTxn sampleOrder).2 := by
  have hkey : sampleTxn.HasKey "a" := .inl (by decide)
  refine ⟨by decide, hkey, fun h => ?_⟩
  have hstore : (commit sampleWarp calmEnv sampleTxn sampleOrder).2.store "a" =
      some 1 := by decide
  have hsame := (h "a" hkey).2
  cases hsame

end Txn

end GoWarp.Core
