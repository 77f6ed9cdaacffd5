import GoWarp.Core.Commit

/-!
# The steps of a commit

Each key of a transaction is looked up once, in a state in which nothing has
touched it yet.  The whole course of `Commit` is therefore determined by the
state before it: it is the flat list of steps `Txn.plan`.  The last theorem
of this module, `Txn.commitProgram_performs`, says that `Commit` takes these
steps, in this order, up to the first one that fails.
-/

namespace GoWarp.Core

open Support Support.Program Support.Step

variable {T : Type}

/-- The places where a value is kept. -/
inductive Cell where
  | cached (k : Key)
  | stored (k : Key)
deriving DecidableEq

def Cell.key : Cell → Key
  | .cached k => k
  | .stored k => k

inductive Content (T : Type) where
  | cached (v : Option (Value T))
  | stored (v : Option T)

/-- What the cache answers at the instant `t`, and what the store holds. -/
def Warp.view (w : Warp T) (t : Instant) : Cell → Content T
  | .cached k => .cached (w.cache.get t k)
  | .stored k => .stored (w.store k)

def CommitState.view (t : Instant) (s : CommitState T) : Cell → Content T := s.warp.view t

abbrev CommitStep (T : Type) := Step (CommitState T) Err Cell (Content T)

/-! ## The steps of one key -/

section Steps

variable (w : Warp T) (env : Env) (t : Instant)

/-- `cache.Set` of a queued set. -/
def cacheSetStep (p : PendingSet T) : CommitStep T where
  fault := w.cacheFault env (.cacheSet p.key)
  effect := CommitState.onWarp fun w => w.cacheSet env p.key p.value p.ttl
  write :=
    match env.fails (.cacheSet p.key) with
    | some _ => none
    | none => some (.cached p.key, .cached
        ((Cache.newEntry (env.clock (.call (.cacheSet p.key))) p.value p.ttl).live t))

/-- `cache.Invalidate` of a queued delete. -/
def cacheInvalidateStep (k : Key) : CommitStep T where
  fault := w.cacheFault env (.cacheInvalidate k)
  effect := CommitState.onWarp fun w => w.cacheInvalidate env k
  write :=
    match env.fails (.cacheInvalidate k) with
    | some _ => none
    | none => some (.cached k, .cached none)

/-- `store.Set` of a queued set. -/
def storeSetStep (p : PendingSet T) : CommitStep T where
  fault := env.fails (.storeSet p.key)
  effect := CommitState.onWarp fun w => w.storeSet p.key p.value.data
  write := some (.stored p.key, .stored (some p.value.data))

/-- `batch.Set` of a queued set, invisible until the batch is committed. -/
def batchSetStep (p : PendingSet T) : CommitStep T where
  fault := env.fails (.batchSet p.key)
  effect := CommitState.onBatch fun b => b.set p.key p.value.data
  write := none

/-- `batch.Delete` of a queued delete. -/
def batchDeleteStep (k : Key) : CommitStep T where
  fault := env.fails (.batchDelete k)
  effect := CommitState.onBatch fun b => b.delete k
  write := none

/-- The update of the registration after a write. -/
def touchStep (p : PendingSet T) : CommitStep T where
  fault := none
  effect := CommitState.onWarp fun w => w.touch p.key p.ttl p.now
  write := none

/-- The steps of `applyLocal` for a set. -/
def applySetSteps (p : PendingSet T) : List (CommitStep T) :=
  cacheSetStep w env t p :: (match w.storeKind with
      | .batcher => [batchSetStep env p, touchStep p]
      | .plain => [storeSetStep env p, touchStep p]
      | .absent => [touchStep p])

/-- The steps of `applyLocal` for a delete. -/
def applyDeleteSteps (k : Key) : List (CommitStep T) :=
  cacheInvalidateStep w env k :: (if w.storeKind = .batcher then [batchDeleteStep env k] else [])

def readFault (k : Key) : Option Err :=
  match w.cacheGet env k with
  | .error e => some e
  | .ok _ => none

def readValue (k : Key) : Option (Value T) :=
  match w.cacheGet env k with
  | .error _ => none
  | .ok old => old

/-- What the set of a key writes, computed from the state before the commit. -/
def plannedSet (k : Key) (value : T) (reg : Registration) : PendingSet T :=
  Txn.pendingSet w env k value reg (readValue w env k)

/-- The steps of waiting for the quorum of a strong key. -/
def quorumSteps (k : Key) (reg : Registration) : List (CommitStep T) :=
  [check (Txn.busFault w), check (env.fails (.publishAndAwait k reg.quorumSize))]

/-- The steps of the first loop at one key. -/
def setSteps [DecidableEq T] (txn : Txn T) (k : Key) (value : T) : List (CommitStep T) :=
  match w.regs k with
  | none => [check (some .unregistered)]
  | some reg =>
    check (readFault w env k) ::
    check (txn.casFault k (readValue w env k)) ::
    match reg.mode with
    | .eventualDistributed =>
      applySetSteps w env t (plannedSet w env k value reg) ++ [check (Txn.publishFault w env k)]
    | .strongDistributed => quorumSteps w env k reg
    | .strongLocal => applySetSteps w env t (plannedSet w env k value reg)

/-- The steps of the second loop at one key. -/
def deleteSteps (k : Key) : List (CommitStep T) :=
  match w.regs k with
  | none => [check (some .unregistered)]
  | some reg =>
    match reg.mode with
    | .eventualDistributed =>
      applyDeleteSteps w env k ++ [check (Txn.publishFault w env k)]
    | .strongDistributed => quorumSteps w env k reg
    | .strongLocal => applyDeleteSteps w env k

/-- The set deferred by the first loop at one key. -/
def deferredSet (k : Key) (value : T) : Option (PendingSet T) :=
  match w.regs k with
  | none => none
  | some reg =>
    if reg.mode = .strongDistributed then
      some (plannedSet w env k value reg)
    else
      none

/-- The delete deferred by the second loop at one key. -/
def deferredDelete (k : Key) : Option Key :=
  match w.regs k with
  | none => none
  | some reg => if reg.mode = .strongDistributed then some k else none

def openStep : CommitStep T :=
  if w.storeKind = .batcher then
    ⟨env.fails .batchOpen, fun s => { s with batch := some Batch.empty }, none⟩
  else
    check none

def commitStep : CommitStep T :=
  if w.storeKind = .batcher then
    ⟨env.fails .batchCommit, CommitState.commitBatch, none⟩
  else
    check none

end Steps

namespace Txn

variable [DecidableEq T] (w : Warp T) (env : Env) (t : Instant) (txn : Txn T) (order : txn.Order)

/-- The steps of a commit before the batch is committed. -/
def writePlan : List (CommitStep T) :=
  openStep w env ::
    (order.sets.flatMap (fun e => setSteps w env t txn e.1 e.2) ++
      (order.deletes.flatMap (deleteSteps w env) ++
        ((order.sets.filterMap fun e => deferredSet w env e.1 e.2).flatMap
            (applySetSteps w env t) ++
          (order.deletes.filterMap (deferredDelete w)).flatMap (applyDeleteSteps w env))))

/-- The steps of a commit, computed from the state before it. -/
def plan : List (CommitStep T) := writePlan w env t txn order ++ [commitStep w env]

end Txn

/-! ## What a running commit leaves untouched -/

/-- A running commit has the configuration of the Warp it started from, and a
batch when the store supports one; the cache and the registrations of the keys
`ks` are still as they were. -/
structure Agrees (w : Warp T) (ks : Key → Prop) (s : CommitState T) : Prop where
  storeKind : s.warp.storeKind = w.storeKind
  hasBus : s.warp.hasBus = w.hasBus
  merges : s.warp.merges = w.merges
  resilient : s.warp.resilient = w.resilient
  batch : s.batch.isSome = decide (w.storeKind = .batcher)
  cache : ∀ k, ks k → s.warp.cache k = w.cache k
  regs : ∀ k, ks k → s.warp.regs k = w.regs k

namespace Agrees

variable {w : Warp T} {ks : Key → Prop} {s : CommitState T}

variable (h : Agrees w ks s)
include h

theorem mono {ks' : Key → Prop} (hks : ∀ k, ks' k → ks k) : Agrees w ks' s :=
  { h with
    cache := fun k hk => h.cache k (hks k hk)
    regs := fun k hk => h.regs k (hks k hk) }

theorem cacheSet (env : Env) {k : Key} (hk : ¬ ks k) (v : Value T) (ttl : Duration) :
    Agrees w ks (s.onWarp fun w => w.cacheSet env k v ttl) := by
  have hne : ∀ k', ks k' → k' ≠ k := fun k' hk' heq => hk (heq ▸ hk')
  rw [CommitState.onWarp, Warp.cacheSet]
  split
  next => exact h
  next =>
    exact { h with
        cache := fun k' hk' => by
          rw [← h.cache k' hk']
          exact Function.update_of_ne (hne k' hk') _ _ }

theorem cacheInvalidate (env : Env) {k : Key}
    (hk : ¬ ks k) : Agrees w ks (s.onWarp fun w => w.cacheInvalidate env k) := by
  have hne : ∀ k', ks k' → k' ≠ k := fun k' hk' heq => hk (heq ▸ hk')
  rw [CommitState.onWarp, Warp.cacheInvalidate]
  split
  next => exact h
  next =>
    exact { h with
        cache := fun k' hk' => by
          rw [← h.cache k' hk']
          exact Function.update_of_ne (hne k' hk') _ _ }

theorem storeSet (k : Key) (data : T) : Agrees w ks (s.onWarp fun w => w.storeSet k data) :=
  { h with }

theorem onBatch (f : Batch T → Batch T) : Agrees w ks (s.onBatch f) :=
  { h with batch := by rw [← h.batch]; exact Option.isSome_map }

theorem touch {k : Key} (hk : ¬ ks k) (ttl : Duration) (now : Instant) :
    Agrees w ks (s.onWarp fun w => w.touch k ttl now) :=
  { h with
    regs := fun k' hk' => by
      have hne : k' ≠ k := fun heq => hk (heq ▸ hk')
      rw [← h.regs k' hk']
      exact Function.update_of_ne hne _ _ }

end Agrees

/-- A step that leaves the keys `ks` untouched. -/
def Spares (w : Warp T) (ks : Key → Prop) (step : CommitStep T) : Prop :=
  ∀ s, Agrees w ks s → Agrees w ks (step.effect s)

section Spares

variable {w : Warp T} {ks : Key → Prop} {env : Env} {t : Instant}

theorem spares_check (fault : Option Err) : Spares w ks (check fault : CommitStep T) := fun _ h => h

variable {step : CommitStep T}

theorem mem_applySetSteps {p : PendingSet T} (hmem : step ∈ applySetSteps w env t p) :
    step = cacheSetStep w env t p ∨ step = batchSetStep env p ∨
      step = storeSetStep env p ∨ step = touchStep p := by
  rw [applySetSteps] at hmem
  cases hkind : w.storeKind <;> rw [hkind] at hmem <;> simp at hmem <;> tauto

variable {k : Key}

theorem mem_applyDeleteSteps (hmem : step ∈ applyDeleteSteps w env k) :
    step = cacheInvalidateStep w env k ∨ step = batchDeleteStep env k := by
  rw [applyDeleteSteps] at hmem
  split at hmem <;> simp at hmem <;> tauto

theorem mem_quorumSteps {reg : Registration} (hmem : step ∈ quorumSteps w env k reg) :
    ∃ fault, step = check fault := by
  simp only [quorumSteps, List.mem_cons, List.not_mem_nil, or_false] at hmem
  rcases hmem with rfl | rfl
  · exact ⟨_, rfl⟩
  · exact ⟨_, rfl⟩

theorem spares_applySetSteps {p : PendingSet T} (hp : ¬ ks p.key) :
    ∀ step ∈ applySetSteps w env t p, Spares w ks step := by
  intro step hmem
  rcases mem_applySetSteps hmem with rfl | rfl | rfl | rfl
  · exact fun s h => h.cacheSet env hp _ _
  · exact fun s h => h.onBatch _
  · exact fun s h => h.storeSet _ _
  · exact fun s h => h.touch hp _ _

theorem spares_applyDeleteSteps (hk : ¬ ks k) :
    ∀ step ∈ applyDeleteSteps w env k, Spares w ks step := by
  intro step hmem
  rcases mem_applyDeleteSteps hmem with rfl | rfl
  · exact fun s h => h.cacheInvalidate env hk
  · exact fun s h => h.onBatch _

theorem mem_setSteps [DecidableEq T] {txn : Txn T} {value : T}
    (hmem : step ∈ setSteps w env t txn k value) :
    (∃ fault, step = check fault) ∨ ∃ reg, w.regs k = some reg ∧ reg.mode ≠ .strongDistributed ∧
        step ∈ applySetSteps w env t (plannedSet w env k value reg) := by
  rw [setSteps] at hmem
  split at hmem
  next => exact .inl ⟨_, List.mem_singleton.mp hmem⟩
  next reg hreg =>
    rcases List.mem_cons.mp hmem with rfl | hmem
    · exact .inl ⟨_, rfl⟩
    rcases List.mem_cons.mp hmem with rfl | hmem
    · exact .inl ⟨_, rfl⟩
    split at hmem
    next hmode =>
      rcases List.mem_append.mp hmem with hmem | hmem
      · exact .inr ⟨reg, hreg, by simp [hmode], hmem⟩
      · exact .inl ⟨_, List.mem_singleton.mp hmem⟩
    next => exact .inl (mem_quorumSteps hmem)
    next hmode => exact .inr ⟨reg, hreg, by simp [hmode], hmem⟩

theorem mem_deleteSteps (hmem : step ∈ deleteSteps w env k) :
    (∃ fault, step = check fault) ∨ ∃ reg, w.regs k = some reg ∧ reg.mode ≠ .strongDistributed ∧
        step ∈ applyDeleteSteps w env k := by
  rw [deleteSteps] at hmem
  split at hmem
  next => exact .inl ⟨_, List.mem_singleton.mp hmem⟩
  next reg hreg =>
    split at hmem
    next hmode =>
      rcases List.mem_append.mp hmem with hmem | hmem
      · exact .inr ⟨reg, hreg, by simp [hmode], hmem⟩
      · exact .inl ⟨_, List.mem_singleton.mp hmem⟩
    next => exact .inl (mem_quorumSteps hmem)
    next hmode => exact .inr ⟨reg, hreg, by simp [hmode], hmem⟩

theorem spares_setSteps [DecidableEq T] {txn : Txn T} {value : T}
    (hk : ¬ ks k) : ∀ step ∈ setSteps w env t txn k value, Spares w ks step := by
  intro step hmem
  rcases mem_setSteps hmem with ⟨fault, rfl⟩ | ⟨reg, _, _, happly⟩
  · exact spares_check fault
  · exact spares_applySetSteps hk step happly

theorem spares_deleteSteps (hk : ¬ ks k) : ∀ step ∈ deleteSteps w env k, Spares w ks step := by
  intro step hmem
  rcases mem_deleteSteps hmem with ⟨fault, rfl⟩ | ⟨reg, _, _, happly⟩
  · exact spares_check fault
  · exact spares_applyDeleteSteps hk step happly

theorem runSteps_agrees {steps : List (CommitStep T)}
    (hsteps : ∀ step ∈ steps, Spares w ks step) {s s' : CommitState T}
    {r : Option Err} (hs : Agrees w ks s) (hrun : runSteps steps s = (r, s')) :
    Agrees w ks s' := by
  have h := runSteps_preserves (P := Agrees w ks) hsteps hs
  rwa [hrun] at h

end Spares

/-! ## The commit takes its steps -/

section Performs

variable {w : Warp T} {ks : Key → Prop} {env : Env} {t : Instant} {s : CommitState T}

section

variable (h : Agrees w ks s)
include h

theorem Agrees.cacheFault (c : Call) : s.warp.cacheFault env c = w.cacheFault env c := by
  rw [Warp.cacheFault, Warp.cacheFault, h.resilient]

variable {k : Key}

theorem Agrees.cacheGet (hk : ks k) : s.warp.cacheGet env k = w.cacheGet env k := by
  rw [Warp.cacheGet, Warp.cacheGet, h.resilient, Cache.get, Cache.get, h.cache k hk]

theorem applySet_performs (p : PendingSet T) :
    Performs (Txn.applySet env p) () (applySetSteps w env t p) s := by
  rw [Txn.applySet]
  refine .get_bind ?_
  rw [h.cacheFault, h.storeKind, h.batch, applySetSteps]
  refine .cons (.perform (cacheSetStep w env t p) s) ?_
  intro _
  cases hkind : w.storeKind with
  | absent => exact .modify _ _
  | plain =>
    exact .cons (.perform (storeSetStep env p) _) fun _ => .modify _ _
  | batcher => exact .cons (.perform (batchSetStep env p) _) fun _ => .modify _ _

theorem applyDelete_performs (k : Key) :
    Performs (Txn.applyDelete env k) () (applyDeleteSteps w env k) s := by
  rw [Txn.applyDelete]
  refine .get_bind ?_
  rw [h.cacheFault, h.batch, applyDeleteSteps]
  refine .cons (.perform (cacheInvalidateStep w env k) s) ?_
  intro _
  by_cases hkind : w.storeKind = .batcher
  · rw [if_pos (decide_eq_true hkind), if_pos hkind]
    exact .perform (batchDeleteStep env k) _
  · rw [if_neg (by simpa using hkind), if_neg hkind]
    exact .pure () _

theorem quorum_performs (k : Key) (reg : Registration) {α : Type} (a : α) : Performs
      (do failOn (Txn.busFault s.warp)
          failOn (env.fails (.publishAndAwait k reg.quorumSize))
          pure a)
      a (quorumSteps w env k reg) s := by
  have hbus : Txn.busFault s.warp = Txn.busFault w := by rw [Txn.busFault, Txn.busFault, h.hasBus]
  rw [hbus, quorumSteps]
  exact .cons (.failOn _ s) fun _ =>
    Performs.cons (.failOn _ _) fun _ => .pure a _

theorem read_performs (hk : ks k) :
    Performs (MonadExcept.ofExcept (s.warp.cacheGet env k)) (readValue w env k)
      [(check (readFault w env k) : CommitStep T)] s := by
  rw [h.cacheGet hk, readValue, readFault]
  cases w.cacheGet env k <;> rfl

theorem Agrees.publishFault (k : Key) :
    Txn.publishFault s.warp env k = Txn.publishFault w env k := by
  rw [Txn.publishFault, Txn.publishFault, h.hasBus]

theorem Agrees.pendingSet (k : Key) (value : T) (reg : Registration) (old : Option (Value T)) :
    Txn.pendingSet s.warp env k value reg old =
      Txn.pendingSet w env k value reg old := by
  rw [Txn.pendingSet, Txn.pendingSet, h.merges]

theorem commitSet_performs [DecidableEq T] {txn : Txn T} (hk : ks k) (value : T) :
    Performs (Txn.commitSet env txn k value) (deferredSet w env k value)
      (setSteps w env t txn k value) s := by
  rw [Txn.commitSet, setSteps, deferredSet]
  refine .get_bind ?_
  rw [h.regs k hk]
  cases w.regs k with
  | none => exact .throw _ _ s
  | some reg =>
    refine .cons (read_performs h hk) fun _ => ?_
    refine .cons (.failOn _ s) fun _ => ?_
    dsimp only
    rw [h.pendingSet, h.publishFault]
    cases reg.mode with
    | strongLocal => exact (applySet_performs h _).bind_pure fun _ => none
    | eventualDistributed =>
      exact .bind (applySet_performs h _) fun s' _ =>
        Performs.cons (.failOn _ s') fun _ => .pure _ _
    | strongDistributed => exact quorum_performs h k reg _

theorem commitDelete_performs (hk : ks k) :
    Performs (Txn.commitDelete env k) (deferredDelete w k) (deleteSteps w env k) s := by
  rw [Txn.commitDelete, deleteSteps, deferredDelete]
  refine .get_bind ?_
  rw [h.regs k hk]
  cases w.regs k with
  | none => exact .throw _ _ s
  | some reg =>
    dsimp only
    rw [h.publishFault]
    cases reg.mode with
    | strongLocal => exact (applyDelete_performs h k).bind_pure fun _ => none
    | eventualDistributed =>
      exact .bind (applyDelete_performs h _) fun s' _ =>
        Performs.cons (.failOn _ s') fun _ => .pure _ _
    | strongDistributed => exact quorum_performs h k reg _

end

theorem collect_performs {α β : Type} (key : α → Key) {d : α → Option β}
    {f : α → Program (CommitState T) Err (Option β)} {steps : α → List (CommitStep T)}
    (hperforms : ∀ a (ks : Key → Prop) s, Agrees w ks s → ks (key a) →
      Performs (f a) (d a) (steps a) s)
    (hspares : ∀ a (ks : Key → Prop), ¬ ks (key a) → ∀ step ∈ steps a, Spares w ks step)
    (l : List α) (hnodup : (l.map key).Nodup) (hs : Agrees w (fun k => k ∈ l.map key) s) :
    Performs (collect f l) (l.filterMap d) (l.flatMap steps) s := by
  induction l generalizing s with
  | nil => exact .pure _ s
  | cons a rest ih =>
    obtain ⟨hnotMem, hrest⟩ := List.nodup_cons.mp hnodup
    have hd : (a :: rest).filterMap d = (d a).toList ++ rest.filterMap d := by
      cases hda : d a <;> simp [hda]
    rw [hd, List.flatMap_cons]
    apply Performs.bind (hperforms a _ s hs List.mem_cons_self)
    intro s' hrun
    have hs' : Agrees w (fun k => k ∈ rest.map key) s' := by
      apply runSteps_agrees (hspares a _ hnotMem) _ hrun
      exact hs.mono fun k hk => List.mem_cons_of_mem _ hk
    exact (ih hrest hs').bind_pure ((d a).toList ++ ·)

theorem forEach_performs {α : Type} {f : α → Program (CommitState T) Err Unit}
    {steps : α → List (CommitStep T)}
    (hperforms : ∀ a s, Agrees w (fun _ => False) s → Performs (f a) () (steps a) s)
    (hspares : ∀ a, ∀ step ∈ steps a, Spares w (fun _ => False) step)
    (l : List α) (hs : Agrees w (fun _ => False) s) :
    Performs (forEach f l) () (l.flatMap steps) s := by
  induction l generalizing s with
  | nil => exact .pure () s
  | cons a rest ih =>
    rw [List.flatMap_cons]
    apply Performs.bind (hperforms a s hs)
    intro s' hrun
    exact ih (runSteps_agrees (hspares a) hs hrun)

theorem spares_flatMap {α : Type} {l : List α} {steps : α → List (CommitStep T)}
    (h : ∀ a ∈ l, ∀ step ∈ steps a, Spares w ks step) :
    ∀ step ∈ l.flatMap steps, Spares w ks step := by
  intro step hmem
  obtain ⟨a, ha, hstep⟩ := List.mem_flatMap.mp hmem
  exact h a ha step hstep

theorem openBatch_performs (w : Warp T) :
    Performs (Txn.openBatch env) () [openStep w env] ⟨w, none⟩ := by
  refine .get_bind ?_
  rw [openStep]
  split
  next => exact .perform ⟨env.fails .batchOpen, _, none⟩ _
  next => rfl

theorem agrees_openStep (w : Warp T) (env : Env) :
    Agrees w (fun _ => True) ((openStep w env).effect ⟨w, none⟩) := by
  by_cases hkind : w.storeKind = .batcher
  · rw [openStep, if_pos hkind]
    exact ⟨rfl, rfl, rfl, rfl, (decide_eq_true hkind).symm, fun _ _ => rfl, fun _ _ => rfl⟩
  · rw [openStep, if_neg hkind]
    exact ⟨rfl, rfl, rfl, rfl, (decide_eq_false hkind).symm, fun _ _ => rfl, fun _ _ => rfl⟩

theorem closeBatch_performs (h : Agrees w ks s) :
    Performs (Txn.closeBatch env) () [commitStep w env] s := by
  refine .get_bind ?_
  rw [h.batch, commitStep]
  by_cases hkind : w.storeKind = .batcher
  · rw [if_pos (decide_eq_true hkind), if_pos hkind]
    exact .perform ⟨env.fails .batchCommit, _, none⟩ s
  · rw [if_neg (by simpa using hkind), if_neg hkind]
    rfl

end Performs

namespace Txn

variable {txn : Txn T} (order : txn.Order)

theorem Order.sets_nodup : (order.sets.map Sigma.fst).Nodup :=
  (order.sets_perm.map Sigma.fst).nodup_iff.mpr txn.sets.nodupKeys

theorem Order.deletes_nodup : order.deletes.Nodup :=
  order.deletes_perm.nodup_iff.mpr txn.deletes.keys_nodup

theorem Order.mem_sets {k : Key} : k ∈ order.sets.map Sigma.fst ↔ k ∈ txn.sets :=
  (order.sets_perm.map Sigma.fst).mem_iff

theorem Order.mem_deletes {k : Key} : k ∈ order.deletes ↔ k ∈ txn.deletes :=
  order.deletes_perm.mem_iff

theorem Order.disjoint : List.Disjoint (order.sets.map Sigma.fst) order.deletes := by
  intro k hset hdel
  exact txn.disjoint k (order.mem_sets.mp hset) (order.mem_deletes.mp hdel)

theorem commitProgram_performs [DecidableEq T] (w : Warp T) (env : Env) (t : Instant) :
    Performs (commitProgram env txn order) () (plan w env t txn order) ⟨w, none⟩ := by
  rw [commitProgram, plan, writePlan, List.cons_append]
  simp only [List.append_assoc]
  refine .cons (openBatch_performs w) fun _ => ?_
  have hopen := agrees_openStep w env
  generalize (openStep w env).effect ⟨w, none⟩ = s₀ at hopen ⊢
  apply Performs.bind (collect_performs Sigma.fst (fun _ _ _ h hk => commitSet_performs h hk _)
      (fun _ _ hk => spares_setSteps hk) order.sets order.sets_nodup
      (hopen.mono fun _ _ => .intro))
  intro s₁ hrun₁
  have h₁ : Agrees w (fun k => k ∈ order.deletes) s₁ := by
    apply runSteps_agrees _ (hopen.mono fun _ _ => .intro) hrun₁
    apply spares_flatMap
    intro e he
    apply spares_setSteps
    exact order.disjoint (List.mem_map_of_mem he)
  apply Performs.bind (collect_performs id (fun _ _ _ h hk => commitDelete_performs h hk)
      (fun _ _ hk => spares_deleteSteps hk) order.deletes
      (by simpa using order.deletes_nodup) (by simpa using h₁))
  intro s₂ hrun₂
  have h₂ : Agrees w (fun _ => False) s₂ := by
    apply runSteps_agrees _ (h₁.mono fun _ => False.elim) hrun₂
    exact spares_flatMap fun _ _ => spares_deleteSteps not_false
  apply Performs.bind (forEach_performs (fun p _ h => applySet_performs h p)
      (fun _ => spares_applySetSteps not_false) _ h₂)
  intro s₃ hrun₃
  have h₃ : Agrees w (fun _ => False) s₃ := by
    apply runSteps_agrees _ h₂ hrun₃
    exact spares_flatMap fun _ _ => spares_applySetSteps not_false
  apply Performs.bind (forEach_performs (fun k _ h => applyDelete_performs h k)
      (fun _ => spares_applyDeleteSteps not_false) _ h₃)
  intro s₄ hrun₄
  have h₄ : Agrees w (fun _ => False) s₄ := by
    apply runSteps_agrees _ h₃ hrun₄
    exact spares_flatMap fun _ _ => spares_applyDeleteSteps not_false
  exact closeBatch_performs h₄

theorem commit_eq [DecidableEq T] (w : Warp T) (env : Env) (t : Instant) : commit w env txn order =
      ((runSteps (plan w env t txn order) ⟨w, none⟩).1,
        (runSteps (plan w env t txn order) ⟨w, none⟩).2.warp) := by
  have h := commitProgram_performs order w env t
  rw [commit, h]
  rcases runSteps (plan w env t txn order) ⟨w, none⟩ with ⟨r, s⟩
  cases r <;> rfl

end Txn

end GoWarp.Core
