import GoWarp.Core.AnyCommit

/-!
# The map of a Warp as any cache

`Warp` keeps its values in a map with expiry, which the resilient wrapper may
cover.  Here that cache is given by its calls, as any other is.  Over it the
operations for any cache return what those of `Warp` return and leave what
they leave, so that a run of accesses to a `Warp` is a run of these operations.
-/

namespace GoWarp.Core

open Support Support.Program

variable {T : Type}

/-- What a call of the map meets: its fault and the clock. -/
abbrev Met := Option Err × Instant

def Env.world (env : Env) : World Met :=
  { env with meets := fun c => (env.fails c, env.clock (.call c)) }

/-- The map, and whether the resilient wrapper covers it. -/
structure MapCache (T : Type) where
  entries : Cache T
  resilient : Bool

namespace MapCache

/-- The calls of the map. -/
def bare : CacheOps Met (Value T) (MapCache T) where
  get x k := do
    failOn x.1
    let c ← MonadState.get
    pure (c.entries.get x.2 k)
  set x k v ttl := perform x.1 fun c => { c with entries := c.entries.set x.2 k v ttl }
  invalidate x k := perform x.1 fun c => { c with entries := c.entries.invalidate k }

/-- The calls of the wrapper, if there is one. -/
def calls (c : MapCache T) : CacheOps Met (Value T) (MapCache T) :=
  if c.resilient then bare.resilient else bare

/-- The calls a Warp makes. -/
def ops : CacheOps Met (Value T) (MapCache T) where
  get x k := do (← MonadState.get).calls.get x k
  set x k v ttl := do (← MonadState.get).calls.set x k v ttl
  invalidate x k := do (← MonadState.get).calls.invalidate x k

end MapCache

namespace Warp

open MapCache (ops)

/-- The Warp over its map. -/
def toOver (w : Warp T) : WarpOver (MapCache T) T :=
  ⟨⟨w.cache, w.resilient⟩, w.store, w.storeKind, w.hasBus, w.merges, w.regs, w.traceEnabled,
    w.hasLatencyHist, w.spawned⟩

variable (w : Warp T) (env : Env) (k : Key) (reg : Registration)

theorem regs_over : w.toOver.regs k = w.regs k := rfl

theorem storeGet_over : w.toOver.storeGet env.world.toEnv k = w.storeGet env k := rfl

/-! ## Calls of the cache -/

theorem exec_cacheGet_over :
    exec (WarpOver.cacheGet ops env.world k) w.toOver = (w.cacheGet env k, w.toOver) := by
  rcases w with ⟨_, _, _, _, _, _, _ | _, _, _, _⟩
  all_goals
    simp only [WarpOver.cacheGet, WarpOver.onCache, exec_zoom, cacheGet, Env.world]
    cases env.fails (.cacheGet k) <;> rfl

theorem maps_cacheSet (v : Value T) (ttl : Duration) :
    Maps toOver (perform (w.cacheFault env (.cacheSet k)) fun w => w.cacheSet env k v ttl)
      (WarpOver.cacheSet ops env.world k v ttl) w := by
  rcases w with ⟨_, _, _, _, _, _, _ | _, _, _, _⟩
  all_goals
    simp only [Maps, WarpOver.cacheSet, WarpOver.onCache, exec_zoom, cacheFault, cacheSet,
      Env.world]
    cases env.fails (.cacheSet k) <;> rfl

theorem maps_cacheInvalidate :
    Maps toOver (perform (w.cacheFault env (.cacheInvalidate k)) fun w => w.cacheInvalidate env k)
      (WarpOver.cacheInvalidate ops env.world k) w := by
  rcases w with ⟨_, _, _, _, _, _, _ | _, _, _, _⟩
  all_goals
    simp only [Maps, WarpOver.cacheInvalidate, WarpOver.onCache, exec_zoom, cacheFault,
      cacheInvalidate, Env.world]
    cases env.fails (.cacheInvalidate k) <;> rfl

theorem tryCacheSet_over (v : Value T) (ttl : Duration) :
    w.toOver.tryCacheSet ops env.world k v ttl = (w.cacheSet env k v ttl).toOver := by
  rw [WarpOver.tryCacheSet, maps_cacheSet w env k v ttl]
  refine congrArg toOver ?_
  simp only [cacheFault, cacheSet]
  cases env.fails (.cacheSet k) <;> split <;> rfl

/-! ## Set and Invalidate -/

theorem maps_mergeBase : Maps toOver (MonadExcept.ofExcept (w.mergeBase env k))
      (WarpOver.mergeBase ops env.world k) w := by
  rw [Maps, exec_ofExcept, WarpOver.mergeBase, exec_bind, exec_cacheGet_over, mergeBase]
  rcases w.cacheGet env k with e | _ | v
  · rfl
  · change exec (if w.storeKind ≠ .absent ∧ w.merges.hasCustom k then _ else _) w.toOver = _
    dsimp only
    split
    · rw [storeGet_over]
      cases w.storeGet env k <;> rfl
    · rfl
  · rfl

variable {env k reg}

theorem maps_applySet (v : Value T) :
    Maps toOver (applySet env k reg v) (WarpOver.applySet ops env.world k reg v) w :=
  .get_bind (.bind (maps_cacheSet w env k _ _) fun _ _ =>
    .ite (.bind (.perform _ rfl) fun _ _ => .perform none rfl) (.perform none rfl))

theorem maps_set (value : T) :
    Maps toOver (set env k value) (WarpOver.set ops env.world k value) w := by
  refine .get_bind ?_
  dsimp only [toOver]
  cases w.regs k with
  | none => rfl
  | some reg =>
    refine .bind (w.maps_mergeBase env k) fun old w' => ?_
    cases reg.mode with
    | eventualDistributed => exact .bind (w'.maps_applySet _) fun _ _ => .ite rfl rfl
    | strongDistributed =>
      exact .failOn_bind _ (.ite (.failOn_bind _ (w'.maps_applySet _)) (w'.maps_applySet _))
    | strongLocal => exact w'.maps_applySet _

theorem maps_invalidate :
    Maps toOver (invalidate env k) (WarpOver.invalidate ops env.world k) w := by
  have happly := w.maps_cacheInvalidate env k
  refine .get_bind ?_
  dsimp only [toOver]
  cases w.regs k with
  | none => rfl
  | some reg =>
    dsimp only
    cases reg.mode with
    | eventualDistributed => exact .bind happly fun _ _ => .ite rfl rfl
    | strongDistributed => exact .failOn_bind _ (.ite (.failOn_bind _ happly) happly)
    | strongLocal => exact happly

/-! ## Reading -/

variable (env k reg)

theorem fill_over (data : T) (ttl : Duration) :
    w.toOver.fill ops env.world k reg data ttl = (w.fill env k data ttl reg).toOver :=
  tryCacheSet_over (w.touch k ttl (env.clock (.fetch k))) env k _ _

theorem getStale_over (v : Value T) :
    w.toOver.getStale ops env.world k reg v = (w.getStale env k reg v).map id toOver := by
  rw [WarpOver.getStale, getStale, storeGet_over]
  refine ite_eq_apply rfl ?_
  rcases w.storeGet env k with e | _ | data
  · cases e <;> rfl
  · rfl
  · exact congrArg (Prod.mk _) (w.fill_over env k reg data _)

theorem slide_over (v : Value T) (now : Instant) :
    w.toOver.slide ops env.world k reg v now = (w.slide env k reg v now).toOver :=
  ite_eq_apply (tryCacheSet_over (w.touch k _ now) env k v _) rfl

theorem eager_over (v : Value T) (now : Instant) :
    w.toOver.eager k v now = (w.eager k v now).toOver := by
  rw [WarpOver.eager, eager, regs_over]
  cases w.regs k with
  | none => rfl
  | some reg => exact ite_eq_apply rfl rfl

theorem getHit_over (v : Value T) :
    w.toOver.getHit ops env.world k reg v = (w.getHit env k reg v).map id toOver := by
  refine ite_eq_apply rfl (ite_eq_apply (w.getStale_over env k reg v) ?_)
  rw [slide_over]
  exact congrArg (Prod.mk _) (eager_over _ k v _)

theorem getMiss_over :
    w.toOver.getMiss ops env.world k reg = (w.getMiss env k reg).map id toOver := by
  rw [WarpOver.getMiss, getMiss, storeGet_over]
  refine ite_eq_apply rfl ?_
  rcases w.storeGet env k with e | _ | data
  · rfl
  · rfl
  · exact congrArg (Prod.mk _) (w.fill_over env k reg data _)

theorem get_over : w.toOver.get ops env.world k = (w.get env k).map id toOver := by
  rw [WarpOver.get, get, exec_cacheGet_over, regs_over]
  cases w.regs k with
  | none => rfl
  | some reg =>
    rcases w.cacheGet env k with e | _ | v
    · exact w.getMiss_over env k reg
    · exact w.getMiss_over env k reg
    · exact w.getHit_over env k reg v

/-! ## GetOrSet, Warmup and goroutines -/

def Loader.toOver (loader : Loader T) : WarpOver.Loader Met T :=
  ⟨loader.result, loader.recheck.world, loader.write.world⟩

theorem loadHit_over (v : Value T) (loaded : Except Err T) :
    w.toOver.loadHit ops env.world k reg v loaded =
      (w.loadHit env k reg v loaded).map id toOver := by
  refine ite_eq_apply (ite_eq_apply rfl ?_) (congrArg (Prod.mk _) (w.slide_over env k reg v _))
  cases loaded with
  | error e => rfl
  | ok data => exact congrArg (Prod.mk _) (w.fill_over env k reg data _)

theorem loadMiss_over (loader : Loader T) : w.toOver.loadMiss ops env.world k reg loader.toOver =
      (w.loadMiss env k reg loader).map id toOver := by
  rcases loader with ⟨result, recheck, write⟩
  rw [WarpOver.loadMiss, loadMiss, Loader.toOver, exec_cacheGet_over]
  rcases w.cacheGet recheck k with e | _ | v
  · rfl
  · cases result with
    | error e => rfl
    | ok data => exact congrArg (fun r => (Reply.found data, r.2)) (maps_set (w.touch k _ _) data)
  · rfl

theorem getOrSet_over (loader : Loader T) :
    w.toOver.getOrSet ops env.world k loader.toOver = (w.getOrSet env k loader).map id toOver := by
  have hreg : w.toOver.ensureRegistered k = (w.ensureRegistered k).toOver := by
    rw [WarpOver.ensureRegistered, WarpOver.register, ensureRegistered, regs_over]
    cases w.regs k <;> rfl
  rw [WarpOver.getOrSet, getOrSet, hreg, WarpOver.getOrLoad, getOrLoad, exec_cacheGet_over]
  rcases (w.ensureRegistered k).cacheGet env k with e | _ | v
  · rfl
  · exact loadMiss_over _ env k _ loader
  · exact loadHit_over _ env k _ v loader.result

theorem warm_over : w.toOver.warm ops env.world k = (w.warm env k).toOver := by
  rw [WarpOver.warm, warm, storeGet_over, regs_over]
  cases w.regs k with
  | none => rfl
  | some reg =>
    rcases w.storeGet env k with e | _ | data
    · rfl
    · rfl
    · exact w.fill_over env k reg data _

theorem warmup_over (keys : List Key) :
    w.toOver.warmup ops env.world keys = (w.warmup env keys).toOver := by
  refine ite_eq_apply rfl ?_
  induction keys generalizing w with
  | nil => rfl
  | cons k rest ih => rw [List.foldl_cons, List.foldl_cons, warm_over, ih]

theorem runTask_over (fetched : Option T) (task : Task) :
    w.toOver.runTask ops env.world fetched task = (w.runTask env fetched task).toOver := by
  cases task with
  | publish k => rfl
  | softFill k ttl | eagerRefresh k ttl =>
    simp only [WarpOver.runTask, runTask, regs_over]
    cases w.regs k with
    | none => rfl
    | some reg =>
      cases fetched with
      | none => rfl
      | some data => first | exact w.tryCacheSet_over env k _ _ | exact w.fill_over env k reg data _

end Warp

/-! ## Commit -/

namespace CommitState

open MapCache (ops)

def toOver (s : CommitState T) : CommitOver (MapCache T) T := ⟨s.warp.toOver, s.batch⟩

variable {env : Env}

theorem maps_onWarp {fault : Option Err} {effect : Warp T → Warp T} {s : CommitState T}
    {q : Program (WarpOver (MapCache T) T) Err Unit}
    (h : Maps Warp.toOver (perform fault effect) q s.warp) :
    Maps toOver (perform fault (onWarp effect)) (CommitOver.onWarp q) s := by
  refine (congrArg (fun r => (r.1, (⟨r.2, s.batch⟩ : CommitOver (MapCache T) T))) h).trans ?_
  cases fault <;> rfl

theorem maps_applySet (p : PendingSet T) (s : CommitState T) :
    Maps toOver (Txn.applySet env p) (CommitOver.applySet ops env.world p) s := by
  refine .get_bind (.bind (maps_onWarp (s.warp.maps_cacheSet env _ _ _)) fun _ s' => ?_)
  exact .ite (.bind (.perform _ rfl) fun _ _ => rfl)
    (.ite (.bind (maps_onWarp (.perform _ rfl)) fun _ _ => rfl) rfl)

theorem maps_applyDelete (k : Key) (s : CommitState T) :
    Maps toOver (Txn.applyDelete env k) (CommitOver.applyDelete ops env.world k) s :=
  .get_bind (.bind (maps_onWarp (s.warp.maps_cacheInvalidate env k)) fun _ _ =>
    .ite (.perform _ rfl) rfl)

theorem maps_commitDelete (k : Key) (s : CommitState T) :
    Maps toOver (Txn.commitDelete env k) (CommitOver.commitDelete ops env.world k) s := by
  refine .get_bind ?_
  dsimp only [toOver, Warp.toOver]
  cases s.warp.regs k with
  | none => rfl
  | some reg =>
    dsimp only
    cases reg.mode with
    | eventualDistributed => exact .bind (maps_applyDelete k s) fun _ _ => .failOn_bind _ rfl
    | strongDistributed => exact .failOn_bind _ (.failOn_bind _ rfl)
    | strongLocal => exact .bind (maps_applyDelete k s) fun _ _ => rfl

variable [DecidableEq T] (env) (txn : Txn T)

theorem maps_commitSet (k : Key) (value : T) (s : CommitState T) :
    Maps toOver (Txn.commitSet env txn k value)
      (CommitOver.commitSet ops env.world txn k value) s := by
  refine .get_bind ?_
  dsimp only [toOver, Warp.toOver]
  cases s.warp.regs k with
  | none => rfl
  | some reg =>
    refine .bind ?_ fun old s' => .failOn_bind _ ?_
    · rw [Maps, exec_ofExcept]
      exact congrArg (fun r => (r.1, (⟨r.2, s.batch⟩ : CommitOver (MapCache T) T)))
        (s.warp.exec_cacheGet_over env k)
    · cases reg.mode with
      | eventualDistributed => exact .bind (maps_applySet _ s') fun _ _ => .failOn_bind _ rfl
      | strongDistributed => exact .failOn_bind _ (.failOn_bind _ rfl)
      | strongLocal => exact .bind (maps_applySet _ s') fun _ _ => rfl

theorem maps_commitProgram (order : txn.Order) (s : CommitState T) :
    Maps toOver (Txn.commitProgram env txn order)
      (CommitOver.commitProgram ops env.world txn order) s := by
  have hopen : Maps toOver (Txn.openBatch env) (CommitOver.openBatch env.world.toEnv) s :=
    .get_bind (.ite (.perform _ rfl) (.pure ()))
  have hclose (s : CommitState T) :
      Maps toOver (Txn.closeBatch env) (CommitOver.closeBatch env.world.toEnv) s := by
    refine .get_bind (.ite (.perform _ ?_) (.pure ()))
    rcases s with ⟨w, _ | b⟩ <;> rfl
  rw [Txn.commitProgram, CommitOver.commitProgram]
  refine .bind hopen fun _ s => ?_
  refine .bind (.collect (fun e s => maps_commitSet env txn (Sigma.fst e) e.2 s) _ s) fun _ s => ?_
  refine .bind (.collect maps_commitDelete _ s) fun _ s => ?_
  refine .bind (.forEach maps_applySet _ s) fun _ s => ?_
  exact .bind (.forEach maps_applyDelete _ s) fun _ => hclose

end CommitState

/-! ## Runs -/

namespace Access

/-- The access as an operation over any cache.  A scan is none. -/
def op : Access T → Option (WarpOp Met T)
  | .key k .get => some (.get k)
  | .key k (.set value) => some (.set k value)
  | .key k .invalidate => some (.invalidate k)
  | .getOrSet k loader => some (.getOrSet k loader.toOver)
  | .warmup keys nodup => some (.warmup keys nodup)
  | .commit txn order => some (.commit txn order)
  | .scan _ _ _ => none
  | .task started fetched => some (.task started fetched)

variable [DecidableEq T]

theorem step_over {access : Access T} {o : WarpOp Met T} (h : access.op = some o) (w : Warp T)
    (env : Env) : WarpOver.machine ⟨MapCache.ops, none⟩ w.toOver (env.world, o) =
      (step w (env, access)).map Warp.toOver := by
  have hwrite {p q} (h : Maps Warp.toOver p q w) :
      some (WarpOver.ended (T := T) (exec q w.toOver)).2 =
        some (KeyOp.written (exec p w)).2.toOver := by
    rw [WarpOver.snd_ended, KeyOp.written_snd, h]
  cases access with
  | key k op =>
    cases op with
    | get =>
      cases h
      exact congrArg (some ·.2) (w.get_over env k)
    | set value =>
      cases h
      exact hwrite (w.maps_set value)
    | invalidate =>
      cases h
      exact hwrite w.maps_invalidate
  | getOrSet k loader =>
    cases h
    exact congrArg (some ·.2) (w.getOrSet_over env k loader)
  | warmup keys nodup =>
    cases h
    exact congrArg some (w.warmup_over env keys)
  | commit txn order =>
    cases h
    have hcommit := CommitState.maps_commitProgram env txn order ⟨w, none⟩
    change some (WarpOver.ended (T := T) (exec _ (CommitState.toOver ⟨w, none⟩))).2.warp =
      some (txn.commit w env order).2.toOver
    rw [WarpOver.snd_ended, hcommit, Txn.commit]
    rcases exec (Txn.commitProgram env txn order) ⟨w, none⟩ with ⟨_ | _, s⟩ <;> rfl
  | scan val keys nodup => cases h
  | task started fetched =>
    cases h
    by_cases hmem : started ∈ w.spawned
    · rw [step, if_pos hmem]
      refine (if_pos (decide_eq_true hmem)).trans ?_
      exact congrArg some ((w.takeTask started).runTask_over env fetched started)
    · rw [step, if_neg hmem]
      exact if_neg fun henabled => hmem (of_decide_eq_true henabled)

/-- A run of accesses to a Warp is a run of operations over its map. -/
theorem run_over {as : List (Env × Access T)} {os : List (World Met × WarpOp Met T)}
    (h : List.Forall₂ (fun a o => o.1 = a.1.world ∧ a.2.op = some o.2) as os) (w : Warp T) :
    (WarpOver.machine ⟨MapCache.ops, none⟩).run w.toOver os = (step.run w as).map Warp.toOver := by
  induction h generalizing w with
  | nil => rfl
  | @cons a o _ _ hop _ ih =>
    rcases o with ⟨_, o⟩
    obtain ⟨rfl, hop⟩ := hop
    rw [Machine.run, Machine.run, step_over hop]
    cases step w a with
    | none => rfl
    | some w' => exact ih w'

end Access

end GoWarp.Core
